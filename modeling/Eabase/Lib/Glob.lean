import Mathlib.Computability.Language

/-!
# Patterns with gaps

A pattern is a product of languages. Where a factor is `⊤` anything may stand
between the parts. A part whose words have one length has at most one way to be
read at a place, so that a matcher can go from gap to gap: once the part behind
a gap is found, at the first place where it stands, no other place needs to be
tried.
-/

namespace Eabase.Lib

open Language List

variable {α : Type*} {K L : Language α} {m n : ℕ} {u s : List α}

def anyLetter : Language α := {s | s.length = 1}

/-- All words have the length `n`. -/
def Uniform (n : ℕ) (L : Language α) : Prop := ∀ x ∈ L, x.length = n

theorem uniform_one : Uniform 0 (1 : Language α) := by
  intro x hx
  rw [(mem_one x).1 hx]
  rfl

theorem Uniform.mul (hL : Uniform n L) (hK : Uniform m K) : Uniform (n + m) (L * K) := by
  intro x hx
  obtain ⟨a, ha, b, hb, rfl⟩ := mem_mul.1 hx
  rw [length_append, hL a ha, hK b hb]

/-- A word is split where the first factor ends. -/
theorem Uniform.mem_mul_iff (hL : Uniform u.length L) : u ++ s ∈ L * K ↔ u ∈ L ∧ s ∈ K := by
  constructor
  · intro h
    obtain ⟨a, ha, b, hb, hab⟩ := mem_mul.1 h
    obtain ⟨rfl, rfl⟩ := append_inj hab (hL a ha)
    exact ⟨ha, hb⟩
  · rintro ⟨hu, hs⟩
    exact append_mem_mul hu hs

/-- Behind a gap: some end of the word. -/
theorem mem_top_mul : s ∈ (⊤ : Language α) * L ↔ ∃ t, t <:+ s ∧ t ∈ L := by
  constructor
  · intro h
    obtain ⟨a, -, b, hb, rfl⟩ := mem_mul.1 h
    exact ⟨b, suffix_append a b, hb⟩
  · rintro ⟨t, ⟨a, rfl⟩, ht⟩
    exact append_mem_mul (Set.mem_univ a) ht

theorem nil_mem_top_mul : [] ∈ (⊤ : Language α) * L ↔ [] ∈ L := by
  rw [mem_top_mul]
  constructor
  · rintro ⟨t, hsuffix, ht⟩
    rwa [suffix_nil.1 hsuffix] at ht
  · intro h
    exact ⟨[], suffix_rfl, h⟩

theorem cons_mem_top_mul {a : α} : a :: s ∈ (⊤ : Language α) * L ↔ a :: s ∈ L ∨ s ∈
    (⊤ : Language α) * L := by
  rw [mem_top_mul, mem_top_mul]
  constructor
  · rintro ⟨t, hsuffix, ht⟩
    rcases suffix_cons_iff.1 hsuffix with rfl | hsuffix
    · exact .inl ht
    · exact .inr ⟨t, hsuffix, ht⟩
  · rintro (h | ⟨t, hsuffix, ht⟩)
    · exact ⟨_, suffix_rfl, h⟩
    · exact ⟨t, hsuffix.trans (suffix_cons a s), ht⟩

/-- **The first place will do**: where the part between two gaps is found, the rest is looked for
behind it. -/
theorem Uniform.top_mul_commit (hL : Uniform u.length L) (hu : u ∈ L) :
    u ++ s ∈ (⊤ : Language α) * (L * ((⊤ : Language α) * K)) ↔ s ∈ (⊤ : Language α) * K := by
  constructor
  · intro h
    obtain ⟨t, hsuffix, ht⟩ := mem_top_mul.1 h
    obtain ⟨a, ha, b, hb, rfl⟩ := mem_mul.1 ht
    obtain ⟨d, hdb, hd⟩ := mem_top_mul.1 hb
    -- The part was found as early as it can stand, so what is behind it there is no less.
    have hlen : d.length ≤ s.length := by
      have hle := hsuffix.length_le
      have hle' := hdb.length_le
      have ha' := hL a ha
      rw [length_append, length_append] at hle
      lia
    have hend : d <:+ u ++ s := hdb.trans ((suffix_append a b).trans hsuffix)
    exact mem_top_mul.2 ⟨d, suffix_of_suffix_length_le hend (suffix_append u s) hlen, hd⟩
  · intro h
    exact mem_top_mul.2 ⟨u ++ s, suffix_rfl, append_mem_mul hu h⟩

/-- Where the word ends with the part, nothing is left for the rest. -/
theorem Uniform.top_mul_end (hL : Uniform u.length L) (hu : u ∈ L) :
    u ∈ (⊤ : Language α) * (L * K) ↔ [] ∈ K := by
  constructor
  · intro h
    obtain ⟨t, hsuffix, ht⟩ := mem_top_mul.1 h
    obtain ⟨a, ha, b, hb, rfl⟩ := mem_mul.1 ht
    have hle := hsuffix.length_le
    rw [length_append, hL a ha] at hle
    obtain rfl : b = [] := eq_nil_of_length_eq_zero (by lia)
    exact hb
  · intro h
    have hmem := append_mem_mul hu h
    rw [append_nil] at hmem
    exact mem_top_mul.2 ⟨u, suffix_rfl, hmem⟩

end Eabase.Lib
