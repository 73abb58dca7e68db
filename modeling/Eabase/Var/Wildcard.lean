import Eabase.Lib.Glob
import Eabase.Utility.VLog

/-!
# Wildcards

`wildcmp` compares a pattern with stars and question marks with a string: up to
the first star character by character, and from then on it keeps where it has to
try again, the pattern behind the latest star and the string one character
further than it was tried. It forgets the stars before: what matched between two
stars needs no second try.

`logging.cc` has a copy with a fixed question mark.
-/

namespace Eabase.Var.Wildcard

open Lib Utility Language List

/-! ## The code -/

def nul : Char := Char.ofNat 0

/-- `*p`, where the list is what a string has from `p` on. -/
def deref (p : List Char) : Char := p.headD nul

/-- The first loop of `wildcmp`, up to a star; `none` when it returns `false`. -/
def wildPrefix (questionMark : Char) : List Char → List Char → Option (List Char × List Char)
  | wild, [] => some (wild, [])
  | wild, c :: str =>
    if deref wild = '*' then some (wild, c :: str)
    else if deref wild ≠ c ∧ deref wild ≠ questionMark then none
    else wildPrefix questionMark wild.tail str

/-- The second loop and what is behind it; `saved` is `mp` and `cp`. It gives `none` when the fuel
runs out, or when it would go on at `mp` before it is set. -/
def wildLoop (questionMark : Char) : ℕ → List Char → List Char → Option (List Char × List Char) →
    Option Bool
  | 0, _, _, _ => none
  | _ + 1, wild, [], _ => some (deref (wild.dropWhile (· == '*')) == nul)
  | fuel + 1, wild, c :: str, saved =>
    if deref wild = '*' then
      if deref wild.tail = nul then some true
      else wildLoop questionMark fuel wild.tail (c :: str) (some (wild.tail, str))
    else if deref wild = c ∨ deref wild = questionMark then wildLoop questionMark fuel wild.tail str saved
    else
      match saved with
      | none => none
      | some (mp, cp) => wildLoop questionMark fuel mp cp (some (mp, cp.tail))

/-- `wildcmp`. -/
def wildcmp (questionMark : Char) (fuel : ℕ) (wild str : List Char) : Option Bool :=
  match wildPrefix questionMark wild str with
  | none => some false
  | some (wild, str) => wildLoop questionMark fuel wild str none

/-! ## The language of a pattern -/

/-- What a character of a pattern stands for. -/
def charLanguage (questionMark c : Char) : Language Char :=
  if c = '*' then ⊤ else if c = questionMark then anyLetter else {[c]}

def language (questionMark : Char) (wild : List Char) : Language Char :=
  (wild.map (charLanguage questionMark)).prod

variable {questionMark c w : Char} {wild str mp s lit u : List Char} {goal : Prop} {fuel : ℕ}
  {b : Bool} {cp : List Char} {name wc wildcards : List Char}

@[simp] theorem language_nil : language questionMark [] = 1 := rfl

@[simp] theorem language_cons :
    language questionMark (w :: wild) = charLanguage questionMark w * language questionMark wild := by
  rw [language, map_cons, prod_cons]
  rfl

theorem language_append :
    language questionMark (lit ++ wild) = language questionMark lit * language questionMark wild := by
  rw [language, map_append, prod_append]
  rfl

@[simp] theorem charLanguage_star : charLanguage questionMark '*' = ⊤ := if_pos rfl

theorem uniform_charLanguage (hw : w ≠ '*') : Uniform 1 (charLanguage questionMark w) := by
  intro x hx
  rw [charLanguage, if_neg hw] at hx
  by_cases hquestion : w = questionMark
  · rw [if_pos hquestion] at hx
    exact hx
  · rw [if_neg hquestion] at hx
    rw [show x = [w] from hx]
    rfl

theorem singleton_mem_charLanguage (hw : w ≠ '*') :
    [c] ∈ charLanguage questionMark w ↔ w = c ∨ w = questionMark := by
  rw [charLanguage, if_neg hw]
  by_cases hquestion : w = questionMark
  · rw [if_pos hquestion]
    constructor
    · intro _
      exact .inr hquestion
    · intro _
      rfl
  · rw [if_neg hquestion]
    constructor
    · intro h
      left
      exact (singleton_inj.1 (show [c] = [w] from h)).symm
    · rintro (rfl | h)
      · exact rfl
      · exact absurd h hquestion

theorem uniform_language (questionMark : Char) (hlit : '*' ∉ lit) :
    Uniform lit.length (language questionMark lit) := by
  induction lit with
  | nil => exact uniform_one
  | cons w lit ih =>
    rw [mem_cons, not_or] at hlit
    rw [language_cons, length_cons, add_comm]
    exact (uniform_charLanguage (.symm hlit.1)).mul (ih hlit.2)

theorem cons_mem_language (hw : w ≠ '*') :
    c :: str ∈ language questionMark (w :: wild) ↔ (w = c ∨ w = questionMark) ∧
    str ∈ language questionMark wild := by
  have hone : Uniform [c].length (charLanguage questionMark w) := uniform_charLanguage hw
  rw [language_cons, ← singleton_mem_charLanguage hw, ← hone.mem_mul_iff]
  rfl

theorem cons_not_mem_nil : c :: str ∉ language questionMark [] := nofun

theorem nil_mem_language : [] ∈ language questionMark wild ↔ wild.all (· == '*') = true := by
  induction wild with
  | nil =>
    constructor
    · intro _
      rfl
    · intro _
      exact nil_mem_one
  | cons w wild ih =>
    rw [all_cons, Bool.and_eq_true, beq_iff_eq, ← ih]
    by_cases hw : w = '*'
    · subst hw
      rw [language_cons, charLanguage_star, nil_mem_top_mul]
      exact (and_iff_right rfl).symm
    · constructor
      · intro h
        obtain ⟨a, ha, b, hb, hab⟩ := mem_mul.1 h
        have hlen := uniform_charLanguage hw a ha
        rw [(append_eq_nil_iff.1 hab).1] at hlen
        exact absurd hlen nofun
      · rintro ⟨h, -⟩
        exact absurd h hw

/-! ## What the loop looks for -/

/-- The loop is behind a star at `wild` and `str`: since that star it has read the start of `s` with
the start of `mp`, and the string matches when a gap and `mp` make up `s`. -/
structure Seeks (questionMark : Char) (goal : Prop) (mp s wild str : List Char) : Prop where
  pattern : nul ∉ mp
  text : nul ∉ s
  tried : ∃ lit u, mp = lit ++ wild ∧ s = u ++ str ∧ '*' ∉ lit ∧ u ∈ language questionMark lit
  goal_iff : goal ↔ s ∈ (⊤ : Language Char) * language questionMark mp

theorem Seeks.start (hmp : nul ∉ mp) (hs : nul ∉ s)
    (hgoal : goal ↔ s ∈ language questionMark ('*' :: mp)) :
    Seeks questionMark goal mp s mp s where
  pattern := hmp
  text := hs
  tried := ⟨[], [], rfl, rfl, not_mem_nil, nil_mem_one⟩
  goal_iff := by rw [hgoal, language_cons, charLanguage_star]

theorem Seeks.nul_not_mem (h : Seeks questionMark goal mp s wild str) : nul ∉ wild ∧ nul ∉ str := by
  obtain ⟨lit, u, rfl, rfl, -, -⟩ := h.tried
  constructor
  · intro hmem
    exact h.pattern (mem_append_right lit hmem)
  · intro hmem
    exact h.text (mem_append_right u hmem)

theorem Seeks.length_le (h : Seeks questionMark goal mp s wild str) :
    wild.length ≤ mp.length ∧ str.length ≤ s.length := by
  obtain ⟨lit, u, rfl, rfl, -, -⟩ := h.tried
  rw [length_append, length_append]
  exact ⟨Nat.le_add_left _ _, Nat.le_add_left _ _⟩

/-- At the next star the part before it is found: the star before is forgotten. -/
theorem Seeks.star (h : Seeks questionMark goal mp s ('*' :: wild) str) :
    Seeks questionMark goal wild str wild str := by
  obtain ⟨hwild, hstr⟩ := h.nul_not_mem
  apply Seeks.start
  · intro hmem
    exact hwild (mem_cons_of_mem _ hmem)
  · exact hstr
  · obtain ⟨lit, u, rfl, rfl, hlit, hu⟩ := h.tried
    have huniform := uniform_language questionMark hlit
    have hlen := huniform u hu
    rw [← hlen] at huniform
    rw [h.goal_iff, language_append, language_cons, charLanguage_star, huniform.top_mul_commit hu]

theorem Seeks.next (h : Seeks questionMark goal mp s (w :: wild) (c :: str)) (hw : w ≠ '*')
    (hc : w = c ∨ w = questionMark) : Seeks questionMark goal mp s wild str := by
  obtain ⟨lit, u, hmp, hs, hlit, hu⟩ := h.tried
  refine { h with tried := ⟨lit ++ [w], u ++ [c], ?_, ?_, ?_, ?_⟩ }
  · rw [hmp, append_assoc]
    rfl
  · rw [hs, append_assoc]
    rfl
  · rw [mem_append, mem_singleton, not_or]
    exact ⟨hlit, Ne.symm hw⟩
  · rw [language_append]
    apply append_mem_mul hu
    exact (cons_mem_language hw).2 ⟨hc, nil_mem_one⟩

/-- The pattern does not go on with the string: the part is not found where it was tried. -/
theorem Seeks.back (h : Seeks questionMark goal mp s wild (c :: str))
    (hno : c :: str ∉ language questionMark wild) :
    s ≠ [] ∧ Seeks questionMark goal mp s.tail mp s.tail := by
  obtain ⟨lit, u, hmp, hs, hlit, hu⟩ := h.tried
  have huniform := uniform_language questionMark hlit
  have hlen := huniform u hu
  rw [← hlen] at huniform
  have hnot : s ∉ language questionMark mp := by
    rw [hmp, hs, language_append, huniform.mem_mul_iff]
    rintro ⟨-, hmem⟩
    exact hno hmem
  cases hcase : s with
  | nil =>
    rw [hcase] at hs
    exact absurd (append_eq_nil_iff.1 hs.symm).2 (cons_ne_nil _ _)
  | cons d s' =>
    refine ⟨cons_ne_nil _ _, ?_⟩
    apply Seeks.start h.pattern
    · intro hmem
      rw [hcase] at h
      exact h.text (mem_cons_of_mem _ hmem)
    · rw [h.goal_iff, hcase, cons_mem_top_mul, language_cons, charLanguage_star, tail_cons]
      rw [hcase] at hnot
      exact or_iff_right hnot

theorem Seeks.done (h : Seeks questionMark goal mp s wild []) : goal ↔ wild.all (· == '*') = true := by
  obtain ⟨lit, u, hmp, hs, hlit, hu⟩ := h.tried
  have huniform := uniform_language questionMark hlit
  have hlen := huniform u hu
  rw [← hlen] at huniform
  rw [append_nil] at hs
  rw [h.goal_iff, hmp, hs, language_append, huniform.top_mul_end hu, nil_mem_language]

theorem Seeks.last (h : Seeks questionMark goal mp s ['*'] str) : goal := by
  rw [h.star.goal_iff, mem_top_mul]
  exact ⟨[], nil_suffix, nil_mem_one⟩

/-- Where the loop does not go on, and no star is in the pattern, it is stuck. -/
theorem stuck_of_not_go (hstar : deref wild ≠ '*') (hgo : ¬(deref wild = c ∨ deref wild = questionMark)) :
    ∀ w ∈ wild.head?, w ≠ '*' ∧ w ≠ c ∧ w ≠ questionMark := by
  intro w hw
  cases wild with
  | nil => exact nomatch hw
  | cons w' wild =>
    obtain rfl : w' = w := Option.some.inj hw
    exact ⟨hstar, not_or.1 hgo⟩

theorem not_mem_of_stuck (hstuck : ∀ w ∈ wild.head?, w ≠ '*' ∧ w ≠ c ∧ w ≠ questionMark) :
    c :: str ∉ language questionMark wild := by
  cases wild with
  | nil => exact cons_not_mem_nil
  | cons w wild =>
    obtain ⟨hstar, hc, hquestion⟩ := hstuck w rfl
    rw [cons_mem_language hstar]
    rintro ⟨h | h, -⟩
    · exact hc h
    · exact hquestion h

/-! ## The loops -/

theorem deref_eq_nul (hwild : nul ∉ wild) : deref wild = nul ↔ wild = [] := by
  cases wild with
  | nil => exact iff_of_true rfl rfl
  | cons w wild =>
    constructor
    · intro h
      rw [show w = nul from h] at hwild
      exact absurd mem_cons_self hwild
    · exact nofun

theorem deref_dropWhile (hwild : nul ∉ wild) :
    (deref (wild.dropWhile (· == '*')) == nul) = wild.all (· == '*') := by
  induction wild with
  | nil => rfl
  | cons w wild ih =>
    rw [mem_cons, not_or] at hwild
    rw [dropWhile_cons, all_cons]
    by_cases hw : (w == '*') = true
    · rw [if_pos hw, ih hwild.2, hw, Bool.true_and]
    · rw [if_neg hw, Bool.not_eq_true _ |>.mp hw, Bool.false_and, beq_eq_false_iff_ne]
      exact Ne.symm hwild.1

section

variable (hquestion : questionMark ≠ nul)
include hquestion

theorem wildLoop_decides {n : ℕ}
    (h : Seeks questionMark goal mp s wild str) (hn : mp.length ≤ n)
    (hfuel : s.length * (n + 1) + wild.length < fuel) :
    ∃ b, wildLoop questionMark fuel wild str (some (mp, s.tail)) = some b ∧ (b = true ↔ goal) := by
  -- Either the pattern goes on, or the string is tried from a later character.
  induction fuel generalizing wild str mp s with
  | zero => exact absurd hfuel (Nat.not_lt_zero _)
  | succ fuel ih =>
    obtain ⟨hwild, hstr⟩ := h.nul_not_mem
    obtain ⟨hwildLen, hstrLen⟩ := h.length_le
    cases str with
    | nil =>
      refine ⟨_, rfl, ?_⟩
      rw [deref_dropWhile hwild, h.done]
    | cons c str =>
      have hc : c ≠ nul := by
        rintro rfl
        exact hstr mem_cons_self
      rw [wildLoop]
      by_cases hstarWild : deref wild = '*'
      · rw [if_pos hstarWild]
        cases wild with
        | nil => exact absurd hstarWild (by decide)
        | cons w wild =>
          obtain rfl : w = '*' := hstarWild
          rw [tail_cons]
          have hwild' : nul ∉ wild := fun hmem => hwild (mem_cons_of_mem _ hmem)
          by_cases hend : deref wild = nul
          · rw [if_pos hend]
            obtain rfl := (deref_eq_nul hwild').1 hend
            exact ⟨true, rfl, iff_of_true rfl h.last⟩
          · rw [if_neg hend]
            have hnext := h.star
            rw [length_cons] at hfuel hwildLen hstrLen
            have hmul : (str.length + 1) * (n + 1) ≤ s.length * (n + 1) := Nat.mul_le_mul_right _ hstrLen
            exact ih hnext (by lia) (by rw [length_cons]; lia)
      · rw [if_neg hstarWild]
        by_cases hgo : deref wild = c ∨ deref wild = questionMark
        · rw [if_pos hgo]
          cases wild with
          | nil =>
            rcases hgo with hgo | hgo
            · exact absurd hgo.symm hc
            · exact absurd hgo.symm hquestion
          | cons w wild =>
            rw [length_cons] at hfuel
            exact ih (h.next hstarWild hgo) hn (by rw [tail_cons]; lia)
        · rw [if_neg hgo]
          obtain ⟨hs, hback⟩ := h.back (not_mem_of_stuck (stuck_of_not_go hstarWild hgo))
          have hpos : 0 < s.length := length_pos_iff.2 hs
          have hmul : s.tail.length * (n + 1) + (n + 1) = s.length * (n + 1) := by
            rw [← Nat.succ_mul, length_tail, Nat.succ_eq_add_one, Nat.sub_add_cancel hpos]
          exact ih hback hn (by lia)

theorem wildPrefix_spec (wild : List Char) (hstr : nul ∉ str) :
    match wildPrefix questionMark wild str with
    | none => str ∉ language questionMark wild
    | some (wild', str') => (str ∈ language questionMark wild ↔ str' ∈ language questionMark wild') ∧
      wild' <:+ wild ∧ str' <:+ str ∧ (str' = [] ∨ deref wild' = '*') := by
  induction str generalizing wild with
  | nil =>
    rw [wildPrefix]
    exact ⟨Iff.rfl, suffix_rfl, suffix_rfl, .inl rfl⟩
  | cons c str ih =>
    rw [mem_cons, not_or] at hstr
    rw [wildPrefix]
    by_cases hstar : deref wild = '*'
    · rw [if_pos hstar]
      exact ⟨Iff.rfl, suffix_rfl, suffix_rfl, .inr hstar⟩
    · rw [if_neg hstar]
      cases wild with
      | nil =>
        rw [if_pos ⟨hstr.1, .symm hquestion⟩]
        exact cons_not_mem_nil
      | cons w wild =>
        have hw : w ≠ '*' := hstar
        by_cases hno : deref (w :: wild) ≠ c ∧ deref (w :: wild) ≠ questionMark
        · rw [if_pos hno]
          rw [cons_mem_language hw]
          rintro ⟨h | h, -⟩
          · exact hno.1 h
          · exact hno.2 h
        · rw [if_neg hno, tail_cons]
          have hgo : w = c ∨ w = questionMark := by
            rw [not_and_or, not_not, not_not] at hno
            exact hno
          have hrest := ih wild hstr.2
          split at hrest
          · rw [cons_mem_language hw]
            rintro ⟨-, hmem⟩
            exact hrest hmem
          · obtain ⟨hiff, hwild, hstr', hend⟩ := hrest
            refine ⟨?_, hwild.trans (suffix_cons _ _), hstr'.trans (suffix_cons _ _), hend⟩
            rw [cons_mem_language hw, and_iff_right hgo, hiff]

theorem wildLoop_first (hwild : nul ∉ wild) (hstr : nul ∉ str)
    (hat : str = [] ∨ deref wild = '*') (hfuel : (str.length + 1) * (wild.length + 1) < fuel) :
    ∃ b, wildLoop questionMark fuel wild str none = some b ∧
    (b = true ↔ str ∈ language questionMark wild) := by
  cases fuel with
  | zero => exact absurd hfuel (Nat.not_lt_zero _)
  | succ fuel =>
    cases str with
    | nil =>
      refine ⟨_, rfl, ?_⟩
      rw [deref_dropWhile hwild, nil_mem_language]
    | cons c str =>
      have hstar : deref wild = '*' := hat.resolve_left (cons_ne_nil _ _)
      cases wild with
      | nil => exact absurd hstar (by decide)
      | cons w wild =>
        have hw : w = '*' := hstar
        subst hw
        rw [mem_cons, not_or] at hwild
        have hseeks : Seeks questionMark (c :: str ∈ language questionMark ('*' :: wild)) wild
            (c :: str) wild (c :: str) :=
          Seeks.start hwild.2 hstr Iff.rfl
        rw [wildLoop, if_pos hstar, tail_cons]
        by_cases hend : deref wild = nul
        · rw [if_pos hend]
          obtain rfl := (deref_eq_nul hwild.2).1 hend
          refine ⟨true, rfl, iff_of_true rfl ?_⟩
          rw [hseeks.goal_iff, mem_top_mul]
          exact ⟨[], nil_suffix, nil_mem_one⟩
        · rw [if_neg hend]
          apply wildLoop_decides hquestion hseeks le_rfl
          rw [length_cons, length_cons] at hfuel
          rw [length_cons]
          have hmul : (str.length + 1 + 1) * (wild.length + 1 + 1)
              = (str.length + 1) * (wild.length + 1) + (str.length + 1) + (wild.length + 1 + 1) := by
            rw [Nat.succ_mul, Nat.mul_succ]
          lia

end

/-- The fuel that is enough: a round of the second loop for each place in the string and in the
pattern. -/
def enough (wild str : List Char) : ℕ := (str.length + 1) * (wild.length + 1) + 1

/-- `wildcmp` stops, and decides whether the string is in the language of the pattern. -/
theorem wildcmp_decides (hquestion : questionMark ≠ nul) (hwild : nul ∉ wild) (hstr : nul ∉ str)
    (hfuel : enough wild str ≤ fuel) :
    ∃ b, wildcmp questionMark fuel wild str = some b ∧ (b = true ↔ str ∈ language questionMark wild) := by
  have hspec := wildPrefix_spec hquestion wild hstr
  rw [wildcmp]
  split at hspec
  · exact ⟨false, rfl, iff_of_false nofun hspec⟩
  · obtain ⟨hiff, hsuffix, hsuffix', hat⟩ := hspec
    rw [hiff]
    apply wildLoop_first hquestion _ _ hat
    · have hmul := Nat.mul_le_mul (Nat.add_le_add_right hsuffix'.length_le 1)
        (Nat.add_le_add_right hsuffix.length_le 1)
      rw [enough] at hfuel
      lia
    · intro hmem
      exact hwild (hsuffix.mem hmem)
    · intro hmem
      exact hstr (hsuffix'.mem hmem)

/-! ## The copy in `logging.cc` -/

def copyResult (r : List Char × Bool) : Bool := r.2 || r.1.all (· == '*')

theorem copyLoop_star (h : (c :: str).length ≤ cp.length + 1) :
    VLog.wildLoop ('*' :: wild) (c :: str) mp cp h
      = if wild = [] then ([], true) else VLog.wildLoop wild (c :: str) wild str (by simp) := by
  rw [VLog.wildLoop]

theorem copyLoop_next (h : (c :: str).length ≤ cp.length + 1) (hw : w ≠ '*') (hc : w = c ∨ w = '?') :
    VLog.wildLoop (w :: wild) (c :: str) mp cp h
      = VLog.wildLoop wild str mp cp (by rw [length_cons] at h; omega) := by
  cases cp with
  | nil => rw [VLog.wildLoop.eq_3 _ _ _ _ _ _ hw, if_pos (hc.imp_left Eq.symm)]
  | cons d cp => rw [VLog.wildLoop.eq_4 _ _ _ _ _ _ _ _ hw, if_pos (hc.imp_left Eq.symm)]

theorem copyLoop_back {d : Char} (h : (c :: str).length ≤ (d :: cp).length + 1)
    (hstuck : ∀ w ∈ wild.head?, w ≠ '*' ∧ w ≠ c ∧ w ≠ '?') :
    VLog.wildLoop wild (c :: str) mp (d :: cp) h = VLog.wildLoop mp (d :: cp) mp cp (by simp) := by
  cases wild with
  | nil => rw [VLog.wildLoop]
  | cons w wild =>
    obtain ⟨hw, hc, hquestion⟩ := hstuck w rfl
    rw [VLog.wildLoop.eq_4 _ _ _ _ _ _ _ _ hw, if_neg (not_or.2 ⟨Ne.symm hc, hquestion⟩)]

theorem copyLoop_back_nil (h : (c :: str).length ≤ ([] : List Char).length + 1)
    (hstuck : ∀ w ∈ wild.head?, w ≠ '*' ∧ w ≠ c ∧ w ≠ '?') :
    VLog.wildLoop wild (c :: str) mp [] h = (mp, false) := by
  cases wild with
  | nil => rw [VLog.wildLoop]
  | cons w wild =>
    obtain ⟨hw, hc, hquestion⟩ := hstuck w rfl
    rw [VLog.wildLoop.eq_3 _ _ _ _ _ _ hw, if_neg (not_or.2 ⟨Ne.symm hc, hquestion⟩)]

theorem copyLoop_agrees (hwild : nul ∉ wild) (hmp : nul ∉ mp) (hstr : nul ∉ str)
    (hcp : nul ∉ cp) (h : str.length ≤ cp.length + 1)
    (hrun : wildLoop '?' fuel wild str (some (mp, cp)) = some b) :
    copyResult (VLog.wildLoop wild str mp cp h) = b := by
  induction fuel generalizing wild str mp cp with
  | zero => cases hrun
  | succ fuel ih =>
    cases str with
    | nil =>
      rw [VLog.wildLoop, copyResult, Bool.false_or, ← deref_dropWhile hwild]
      exact Option.some.inj hrun
    | cons c str =>
      have hstr' : nul ∉ str := fun hmem => hstr (mem_cons_of_mem _ hmem)
      rw [wildLoop] at hrun
      by_cases hstar : deref wild = '*'
      · rw [if_pos hstar] at hrun
        cases wild with
        | nil => exact absurd hstar (by decide)
        | cons w wild =>
          have hw : w = '*' := hstar
          subst hw
          have hwild' : nul ∉ wild := fun hmem => hwild (mem_cons_of_mem _ hmem)
          rw [tail_cons] at hrun
          rw [copyLoop_star]
          by_cases hend : deref wild = nul
          · rw [if_pos hend] at hrun
            rw [if_pos ((deref_eq_nul hwild').1 hend)]
            exact Option.some.inj hrun
          · rw [if_neg hend] at hrun
            rw [if_neg (fun hnil => hend ((deref_eq_nul hwild').2 hnil))]
            exact ih hwild' hwild' hstr hstr' _ hrun
      · rw [if_neg hstar] at hrun
        by_cases hgo : deref wild = c ∨ deref wild = '?'
        · rw [if_pos hgo] at hrun
          cases wild with
          | nil =>
            rcases hgo with hgo | hgo
            · exact absurd (hgo ▸ mem_cons_self) hstr
            · exact absurd hgo (by decide)
          | cons w wild =>
            have hw : w ≠ '*' := hstar
            rw [copyLoop_next h hw hgo]
            exact ih (fun hmem => hwild (mem_cons_of_mem _ hmem)) hmp hstr' hcp _ hrun
        · rw [if_neg hgo] at hrun
          have hstuck := stuck_of_not_go hstar hgo
          cases cp with
          | nil =>
            rw [copyLoop_back_nil h hstuck]
            -- The first one ends its loop in the next round.
            cases fuel with
            | zero => cases hrun
            | succ fuel =>
              rw [copyResult, Bool.false_or, ← deref_dropWhile hmp]
              exact Option.some.inj hrun
          | cons d cp =>
            rw [copyLoop_back h hstuck]
            exact ih hmp hmp hcp (fun hmem => hcp (mem_cons_of_mem _ hmem)) _ hrun

theorem copyPrefix_agrees (hstr : nul ∉ str) : VLog.wildPrefix wild str = wildPrefix '?' wild str := by
  induction str generalizing wild with
  | nil => rw [VLog.wildPrefix, wildPrefix]
  | cons c str ih =>
    rw [mem_cons, not_or] at hstr
    cases wild with
    | nil =>
      have hno : deref [] ≠ c ∧ deref [] ≠ '?' := ⟨hstr.1, by decide⟩
      rw [VLog.wildPrefix, wildPrefix, if_neg (by decide), if_pos hno]
    | cons w wild =>
      by_cases hw : w = '*'
      · subst hw
        have hstar : deref ('*' :: wild) = '*' := rfl
        rw [VLog.wildPrefix, wildPrefix, if_pos hstar]
        exact nofun
      · rw [VLog.wildPrefix, wildPrefix, if_neg (show deref (w :: wild) ≠ '*' from hw), ih hstr.2]
        · rfl
        · exact hw

theorem copyLoop_first (hwild : nul ∉ wild) (hstr : nul ∉ str) (hat : str = [] ∨ deref wild = '*')
    (hrun : wildLoop '?' fuel wild str none = some b) :
    copyResult (VLog.wildLoop wild str wild str (Nat.le_succ _)) = b := by
  cases fuel with
  | zero => exact nomatch hrun
  | succ fuel =>
    cases str with
    | nil =>
      rw [VLog.wildLoop, copyResult, Bool.false_or, ← deref_dropWhile hwild]
      exact Option.some.inj hrun
    | cons c str =>
      have hstar : deref wild = '*' := hat.resolve_left (cons_ne_nil _ _)
      rw [wildLoop, if_pos hstar] at hrun
      cases wild with
      | nil => exact absurd hstar (by decide)
      | cons w wild =>
        have hw : w = '*' := hstar
        subst hw
        rw [mem_cons, not_or] at hwild
        have hstr' : nul ∉ str := fun hmem => hstr (mem_cons_of_mem _ hmem)
        rw [tail_cons] at hrun
        rw [copyLoop_star]
        by_cases hend : deref wild = nul
        · rw [if_pos hend] at hrun
          rw [if_pos ((deref_eq_nul hwild.2).1 hend)]
          exact Option.some.inj hrun
        · rw [if_neg hend] at hrun
          rw [if_neg (fun hnil => hend ((deref_eq_nul hwild.2).2 hnil))]
          exact copyLoop_agrees hwild.2 hwild.2 hstr hstr' _ hrun

theorem copy_agrees (hwild : nul ∉ wild) (hstr : nul ∉ str) (hrun : wildcmp '?' fuel wild str = some b) :
    VLog.wildcmp wild str = b := by
  have hquestion : '?' ≠ nul := by decide
  have hspec := wildPrefix_spec hquestion wild hstr
  rw [wildcmp] at hrun
  rw [VLog.wildcmp, copyPrefix_agrees hstr]
  cases hbegin : wildPrefix '?' wild str with
  | none =>
    rw [hbegin] at hrun
    exact Option.some.inj hrun
  | some p =>
    rw [hbegin] at hrun hspec
    obtain ⟨-, hsuffix, hsuffix', hat⟩ := hspec
    apply copyLoop_first _ _ hat hrun
    · intro hmem
      exact hwild (hsuffix.mem hmem)
    · intro hmem
      exact hstr (hsuffix'.mem hmem)

/-- **`wildcmp` decides whether the string is in the language of the pattern**, for every question
mark, pattern and string, and stops; so does its copy. -/
theorem wildcmp_recognizes (questionMark : Char) (hquestion : questionMark ≠ nul) (wild str : List Char)
    (hwild : nul ∉ wild) (hstr : nul ∉ str) :
    (∀ fuel, enough wild str ≤ fuel →
      ∃ b, wildcmp questionMark fuel wild str = some b ∧ (b = true ↔ str ∈ language questionMark wild)) ∧
    (VLog.wildcmp wild str = true ↔ str ∈ language '?' wild) := by
  constructor
  · intro fuel hfuel
    exact wildcmp_decides hquestion hwild hstr hfuel
  · have hmark : '?' ≠ nul := by decide
    obtain ⟨b, hb, hiff⟩ := wildcmp_decides hmark hwild hstr le_rfl
    rw [copy_agrees hwild hstr hb, hiff]

/-- The pattern of a test of `dump_exposed`: the first place of the part behind the star is given
up. -/
theorem wildcmp_recognizes_rot :
    (∀ fuel, enough "*?rot*".toList "car_rot_var5".toList ≤ fuel →
      ∃ b, wildcmp '?' fuel "*?rot*".toList "car_rot_var5".toList = some b ∧
        (b = true ↔ "car_rot_var5".toList ∈ language '?' "*?rot*".toList)) ∧
    (VLog.wildcmp "*?rot*".toList "car_rot_var5".toList = true
      ↔ "car_rot_var5".toList ∈ language '?' "*?rot*".toList) :=
  wildcmp_recognizes '?' (by decide) "*?rot*".toList "car_rot_var5".toList (by decide) (by decide)

end Eabase.Var.Wildcard
