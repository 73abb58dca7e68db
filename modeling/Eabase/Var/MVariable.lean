import Mathlib.Data.List.AList
import Eabase.Lib.Machine

/-!
# The registry of multi-dimension variables

`MVariable::expose_impl` hides the old name, builds the new one in `_name` and
enters it into the global map. It has three exits behind that: too many names,
a name that is there already, and success. `hide` and the destructor take the
entry of `_name` out of the map.

Names are lists of characters. A variable that was destructed is not used again;
where the code aborts for a name conflict, nothing happens any more.

The first exit leaves `_name` with a name that is not entered, the second returns
0 although nothing was entered. A call is right exactly when it takes neither.
-/

namespace Eabase.Var.MVariable

open Lib Function

variable {ι : Type*} [DecidableEq ι]

/-! ## Names -/

/-- One character of `to_underscored_name`; `prev` is the one in front of it, `name` what is
built. -/
def underscore (name : List Char) (prev : Option Char) (c : Char) : List Char :=
  if c.isAlpha then
    if c < 'a' then
      (if prev.any (!·.isUpper) ∧ name.getLast? ≠ some '_' then name ++ ['_'] else name) ++ [c.toLower]
    else name ++ [c]
  else if c.isDigit then name ++ [c]
  else if name = [] ∨ name.getLast? ≠ some '_' then name ++ ['_']
  else name

/-- The loop of `to_underscored_name`. -/
def toUnderscoredNameFrom (name : List Char) (prev : Option Char) : List Char → List Char
  | [] => name
  | c :: src => toUnderscoredNameFrom (underscore name prev c) (some c) src

/-- `to_underscored_name(&name, src)`. -/
def toUnderscoredName (name src : List Char) : List Char :=
  toUnderscoredNameFrom name none src

/-- The name that `expose_impl` builds. -/
def buildName (pre name : List Char) : List Char :=
  let s := toUnderscoredName [] pre
  toUnderscoredName (if s ≠ [] ∧ s.getLast? ≠ some '_' then s ++ ['_'] else s) name

example : buildName "foo.Bar".toList "QpsOfHTTP 2".toList = "foo_bar_qps_of_http_2".toList := by decide

theorem underscore_ne_nil (name : List Char) (prev : Option Char) (c : Char) :
    underscore name prev c ≠ [] := by
  unfold underscore
  split
  · split
    · exact List.append_ne_nil_of_right_ne_nil _ (List.cons_ne_nil _ _)
    · exact List.append_ne_nil_of_right_ne_nil _ (List.cons_ne_nil _ _)
  · split
    · exact List.append_ne_nil_of_right_ne_nil _ (List.cons_ne_nil _ _)
    · split
      case isTrue => exact List.append_ne_nil_of_right_ne_nil _ (List.cons_ne_nil _ _)
      case isFalse h => exact fun hname => h (.inl hname)

theorem toUnderscoredNameFrom_ne_nil {name : List Char} (hname : name ≠ []) (prev : Option Char)
    (src : List Char) : toUnderscoredNameFrom name prev src ≠ [] := by
  induction src generalizing name prev with
  | nil => exact hname
  | cons c src ih => exact ih (underscore_ne_nil name prev c) (some c)

theorem buildName_ne_nil (pre : List Char) {name : List Char} (hname : name ≠ []) :
    buildName pre name ≠ [] := by
  cases name with
  | nil => exact absurd rfl hname
  | cons c src => exact toUnderscoredNameFrom_ne_nil (underscore_ne_nil _ none c) (some c) src

/-! ## The registry -/

/-- `FLAGS_var_max_multi_dimension_metric_number` and `FLAGS_var_abort_on_same_name`. -/
structure Flags where
  maxMultiDimensionMetricNumber : ℕ
  abortOnSameName : Bool

/-- The map, the `_name` of each variable and whether it is still there; whether a CHECK failed, the
program was aborted, or a conflict was noted (`s_var_may_abort`). -/
structure State (ι : Type*) where
  map : AList fun _ : List Char => ι
  name : ι → List Char
  alive : ι → Bool
  checkFailed : Bool
  aborted : Bool
  varMayAbort : Bool

def start (ι : Type*) : State ι where
  map := ∅
  name _ := []
  alive _ := true
  checkFailed := false
  aborted := false
  varMayAbort := false

def State.setName (s : State ι) (x : ι) (n : List Char) : State ι :=
  { s with name := update s.name x n }

/-- `hide`. -/
def State.hide (s : State ι) (x : ι) : Bool × State ι :=
  if s.name x = [] then (false, s)
  else
    let s' :=
      match s.map.lookup (s.name x) with
      | some _ => { s with map := s.map.erase (s.name x) }
      | none => { s with checkFailed := true }
    (true, s'.setName x [])

/-- `count_exposed`. -/
def State.countExposed (s : State ι) : ℕ :=
  s.map.entries.length

/-- `expose_impl`: what it returns, if the program is not aborted. -/
def State.exposeImpl (F : Flags) (s : State ι) (x : ι) (pre name : List Char) : Option ℤ × State ι :=
  if name = [] then (some (-1), s)
  else
    let n := buildName pre name
    let s₁ := (s.hide x).2.setName x n
    if s₁.countExposed > F.maxMultiDimensionMetricNumber then (some (-1), s₁)
    else
      match s₁.map.lookup n with
      | none => (some 0, { s₁ with map := s₁.map.insert n x })
      | some _ =>
        if F.abortOnSameName then (none, { s₁ with aborted := true })
        else (some 0, { s₁ with varMayAbort := true }.setName x [])

/-- `~MVariable`: the subclass hides the variable, and then it must be hidden. -/
def State.destroy (s : State ι) (x : ι) : State ι :=
  let (hidden, s') := (s.hide x).2.hide x
  { s' with
    alive := update s'.alive x false
    checkFailed := s'.checkFailed || hidden }

/-- The calls on a variable; `expose` is `expose_as` without a prefix. -/
inductive Act (ι : Type*) where
  | exposeAs (x : ι) (pre name : List Char)
  | hide (x : ι)
  | destroy (x : ι)

def Act.var : Act ι → ι
  | .exposeAs x _ _ | .hide x | .destroy x => x

def call (F : Flags) (s : State ι) : Act ι → State ι
  | .exposeAs x pre name => (s.exposeImpl F x pre name).2
  | .hide x => (s.hide x).2
  | .destroy x => s.destroy x

def step (F : Flags) (s : State ι) (a : Act ι) : State ι :=
  if s.aborted ∨ s.alive a.var = false then s else call F s a

/-! ## What is claimed -/

/-- The names and the map agree, and no CHECK failed. -/
structure Consistent (s : State ι) : Prop where
  named : ∀ x, s.name x ≠ [] ↔ s.map.lookup (s.name x) = some x
  check : s.checkFailed = false

/-- The call leaves the entries of other variables alone, and `expose` returns 0 if and only if
there is a new name and the variable is then registered under it. -/
structure Right (F : Flags) (s : State ι) (a : Act ι) : Prop where
  others : ∀ n y, y ≠ a.var → s.map.lookup n = some y → (step F s a).map.lookup n = some y
  exposed : ∀ x pre name r, a = .exposeAs x pre name → s.aborted = false → s.alive x = true →
    (s.exposeImpl F x pre name).1 = some r →
    (r = 0 ↔ name ≠ [] ∧ (step F s a).map.lookup (buildName pre name) = some x)

/-- The call is right, and what it leaves is consistent unless the program was aborted. -/
def Sound (F : Flags) (s : State ι) (a : Act ι) : Prop :=
  Right F s a ∧ ((step F s a).aborted = false → Consistent (step F s a))

/-- What a call must heed: a variable that is exposed with a name finds, once its old name is
hidden, no more names than the limit, and finds its new name not taken (where that does not
abort). -/
def Heeds (F : Flags) (s : State ι) : Act ι → Prop
  | .exposeAs x pre name => s.aborted = false → s.alive x = true → name ≠ [] →
      (s.hide x).2.countExposed ≤ F.maxMultiDimensionMetricNumber ∧
      (F.abortOnSameName = false → (s.hide x).2.map.lookup (buildName pre name) = none)
  | _ => True

instance (F : Flags) (s : State ι) : DecidablePred (Heeds F s)
  | .exposeAs x pre name => inferInstanceAs (Decidable (s.aborted = false → s.alive x = true →
      name ≠ [] → (s.hide x).2.countExposed ≤ F.maxMultiDimensionMetricNumber ∧
      (F.abortOnSameName = false → (s.hide x).2.map.lookup (buildName pre name) = none)))
  | .hide _ | .destroy _ => inferInstanceAs (Decidable True)

/-! ## The invariant -/

/-- Each name that is set is entered for its variable, and each entry is for the name of its
variable. -/
structure Registered (s : State ι) : Prop where
  named : ∀ x, s.name x ≠ [] → s.map.lookup (s.name x) = some x
  entry : ∀ n x, s.map.lookup n = some x → s.name x = n
  nonempty : s.map.lookup [] = none
  check : s.checkFailed = false

/-- What holds as long as the program was not aborted. -/
def Inv (s : State ι) : Prop :=
  s.aborted = false → Registered s

omit [DecidableEq ι] in
theorem Registered.consistent {s : State ι} (h : Registered s) : Consistent s where
  named x := by
    constructor
    · exact h.named x
    · intro hx hname
      rw [hname, h.nonempty] at hx
      cases hx
  check := h.check

omit [DecidableEq ι] in
theorem start_registered : Registered (start ι) where
  named _ h := absurd rfl h
  entry := nofun
  nonempty := rfl
  check := rfl

section Steps

variable {F : Flags} {s : State ι} {x y : ι} {pre name n : List Char} {a : Act ι}

@[simp] theorem setName_self (s : State ι) (x : ι) (n : List Char) : (s.setName x n).name x = n :=
  update_self ..

theorem setName_ne (h : y ≠ x) : (s.setName x n).name y = s.name y :=
  update_of_ne h ..

@[simp] theorem setName_map (s : State ι) (x : ι) (n : List Char) : (s.setName x n).map = s.map := rfl

theorem hide_of_nil (hx : s.name x = []) : s.hide x = (false, s) :=
  if_pos hx

theorem hide_of_registered (h : Registered s) (hx : s.name x ≠ []) :
    s.hide x = (true, { s with map := s.map.erase (s.name x) }.setName x []) := by
  unfold State.hide
  rw [if_neg hx]
  simp only [h.named x hx]

@[simp] theorem hide_aborted (s : State ι) (x : ι) : (s.hide x).2.aborted = s.aborted := by
  unfold State.hide
  split
  · rfl
  · split <;> rfl

@[simp] theorem hide_alive (s : State ι) (x : ι) : (s.hide x).2.alive = s.alive := by
  unfold State.hide
  split
  · rfl
  · split <;> rfl

theorem hide_name (s : State ι) (x : ι) : (s.hide x).2.name x = [] := by
  unfold State.hide
  split
  · assumption
  · exact setName_self ..

theorem hide_lookup (h : Registered s) (hy : y ≠ x) (hn : s.map.lookup n = some y) :
    (s.hide x).2.map.lookup n = some y := by
  by_cases hx : s.name x = []
  · rw [hide_of_nil hx]
    exact hn
  · rw [hide_of_registered h hx]
    have hne : n ≠ s.name x := by
      rintro rfl
      exact hy (Option.some.inj (hn.symm.trans (h.named x hx)))
    exact (AList.lookup_erase_ne hne).trans hn

theorem hide_registered (h : Registered s) (x : ι) : Registered (s.hide x).2 := by
  by_cases hx : s.name x = []
  · rw [hide_of_nil hx]
    exact h
  · rw [hide_of_registered h hx]
    constructor
    · intro y hy
      obtain rfl | hyx := eq_or_ne y x
      · exact absurd (setName_self ..) hy
      · rw [setName_ne hyx] at hy ⊢
        have hne : s.name y ≠ s.name x := fun heq =>
          hyx (Option.some.inj ((h.named y hy).symm.trans (heq ▸ h.named x hx)))
        exact (AList.lookup_erase_ne hne).trans (h.named y hy)
    · intro n y hn
      have hne : n ≠ s.name x := by
        rintro rfl
        exact nomatch (AList.lookup_erase _ _).symm.trans hn
      have hn' : s.map.lookup n = some y := (AList.lookup_erase_ne hne).symm.trans hn
      have hyx : y ≠ x := by
        rintro rfl
        exact hne (h.entry n y hn').symm
      exact (setName_ne hyx).trans (h.entry n y hn')
    · exact (AList.lookup_erase_ne (Ne.symm hx)).trans h.nonempty
    · exact h.check

omit [DecidableEq ι] in
theorem Registered.no_entry (h : Registered s) (hx : s.name x = []) : s.map.lookup n ≠ some x := by
  intro hn
  have hname := h.entry n x hn
  rw [hx] at hname
  subst hname
  exact nomatch h.nonempty.symm.trans hn

theorem insert_registered (h : Registered s) (hx : s.name x = []) (hn : n ≠ [])
    (hnone : s.map.lookup n = none) :
    Registered { s.setName x n with map := s.map.insert n x } := by
  constructor
  · intro y hy
    obtain rfl | hyx := eq_or_ne y x
    · have hself : (s.setName y n).name y = n := setName_self ..
      rw [hself]
      exact AList.lookup_insert ..
    · have hname : (s.setName x n).name y = s.name y := setName_ne hyx
      rw [hname]
      have hy' : s.name y ≠ [] := fun h0 => hy (hname.trans h0)
      have hne : s.name y ≠ n := by
        intro heq
        have hentry := h.named y hy'
        rw [heq, hnone] at hentry
        cases hentry
      exact (AList.lookup_insert_ne hne).trans (h.named y hy')
  · intro m y hm
    obtain rfl | hmn := eq_or_ne m n
    · obtain rfl := Option.some.inj ((AList.lookup_insert _).symm.trans hm)
      exact setName_self ..
    · have hm' : s.map.lookup m = some y := (AList.lookup_insert_ne hmn).symm.trans hm
      have hyx : y ≠ x := by
        rintro rfl
        exact h.no_entry hx hm'
      exact (setName_ne hyx).trans (h.entry m y hm')
  · exact (AList.lookup_insert_ne hn.symm).trans h.nonempty
  · exact h.check

theorem destroy_eq (s : State ι) (x : ι) :
    s.destroy x = { (s.hide x).2 with alive := update (s.hide x).2.alive x false } := by
  unfold State.destroy
  rw [hide_of_nil (hide_name s x)]
  simp

theorem exposeImpl_of_limit (hname : name ≠ [])
    (hmax : (s.hide x).2.countExposed > F.maxMultiDimensionMetricNumber) :
    s.exposeImpl F x pre name = (some (-1), (s.hide x).2.setName x (buildName pre name)) := by
  unfold State.exposeImpl
  rw [if_neg hname]
  exact if_pos hmax

section

variable (hname : name ≠ []) (hmax : (s.hide x).2.countExposed ≤ F.maxMultiDimensionMetricNumber)
include hname hmax

theorem exposeImpl_of_none (hnone : (s.hide x).2.map.lookup (buildName pre name) = none) :
    s.exposeImpl F x pre name = (some 0, { (s.hide x).2.setName x (buildName pre name) with
      map := (s.hide x).2.map.insert (buildName pre name) x }) := by
  unfold State.exposeImpl
  rw [if_neg hname]
  refine (if_neg (not_lt.2 hmax)).trans ?_
  simp only [setName_map, hnone]

theorem exposeImpl_of_some (hsome : (s.hide x).2.map.lookup (buildName pre name) = some y) :
    s.exposeImpl F x pre name = if F.abortOnSameName then
        (none, { (s.hide x).2.setName x (buildName pre name) with aborted := true })
      else
        (some 0, { (s.hide x).2.setName x (buildName pre name) with varMayAbort := true }.setName x
          []) := by
  unfold State.exposeImpl
  rw [if_neg hname]
  refine (if_neg (not_lt.2 hmax)).trans ?_
  simp only [setName_map, hsome]

end

theorem step_of_alive (hs : s.aborted = false) (halive : s.alive a.var = true) :
    step F s a = call F s a := by
  refine if_neg ?_
  rintro (h | h)
  · exact nomatch hs.symm.trans h
  · exact nomatch halive.symm.trans h

/-- An `expose` is right when it returns `r`, leaves the entries of others alone, and `r` tells
whether the variable is registered. -/
theorem right_of_expose {r : Option ℤ} {s' : State ι} (hs : s.aborted = false)
    (halive : s.alive x = true) (himpl : s.exposeImpl F x pre name = (r, s'))
    (hothers : ∀ n y, y ≠ x → s.map.lookup n = some y → s'.map.lookup n = some y)
    (hr : ∀ r', r = some r' → (r' = 0 ↔ name ≠ [] ∧ s'.map.lookup (buildName pre name) = some x)) :
    Right F s (.exposeAs x pre name) := by
  have hstep : step F s (.exposeAs x pre name) = s' :=
    (step_of_alive (a := .exposeAs x pre name) hs halive).trans (congrArg Prod.snd himpl)
  constructor
  · rw [hstep]
    exact hothers
  · rintro x' pre' name' r' ⟨⟩ _ _ hr'
    rw [himpl] at hr'
    rw [hstep]
    exact hr r' hr'

/-- An `expose` that heeds the limit and the names that are taken is right, and keeps the
invariant. -/
theorem expose_right (h : Registered s) (hs : s.aborted = false) (halive : s.alive x = true)
    (hheeds : Heeds F s (.exposeAs x pre name)) :
    Right F s (.exposeAs x pre name) ∧ Inv (s.exposeImpl F x pre name).2 := by
  have hhide := hide_registered h x
  have hothers : ∀ n y, y ≠ x → s.map.lookup n = some y → (s.hide x).2.map.lookup n = some y :=
    fun n y hy => hide_lookup h hy
  by_cases hname : name = []
  · have himpl : s.exposeImpl F x pre name = (some (-1), s) := if_pos hname
    refine ⟨right_of_expose hs halive himpl (fun _ _ _ => id) ?_, ?_⟩
    · rintro r' ⟨⟩
      exact iff_of_false (by decide) fun hx => hx.1 hname
    · rw [himpl]
      exact fun _ => h
  obtain ⟨hmax, hfree⟩ := hheeds hs halive hname
  cases hlookup : (s.hide x).2.map.lookup (buildName pre name) with
  | none =>
    have himpl := exposeImpl_of_none hname hmax hlookup
    refine ⟨right_of_expose hs halive himpl ?_ ?_, ?_⟩
    · intro n y hy hn
      have hne : n ≠ buildName pre name := by
        rintro rfl
        exact nomatch hlookup.symm.trans (hothers _ y hy hn)
      exact (AList.lookup_insert_ne hne).trans (hothers n y hy hn)
    · rintro r' ⟨⟩
      exact iff_of_true rfl ⟨hname, AList.lookup_insert _⟩
    · rw [himpl]
      exact fun _ => insert_registered hhide (hide_name s x) (buildName_ne_nil pre hname) hlookup
  | some y =>
    have himpl := exposeImpl_of_some hname hmax hlookup
    have habort : F.abortOnSameName = true := by
      by_contra hno
      exact nomatch hlookup.symm.trans (hfree (Bool.eq_false_iff.2 hno))
    rw [habort] at himpl
    refine ⟨right_of_expose hs halive himpl hothers nofun, ?_⟩
    rw [himpl]
    exact nofun

/-- An `expose` that is sound has heeded the limit and the names that are taken. -/
theorem expose_heeds (h : Registered s) (hsound : Sound F s (.exposeAs x pre name)) :
    Heeds F s (.exposeAs x pre name) := by
  intro hs halive hname
  obtain ⟨hright, hcons⟩ := hsound
  have hstep : step F s (.exposeAs x pre name) = (s.exposeImpl F x pre name).2 :=
    step_of_alive hs halive
  have hhide := hide_registered h x
  have hmax : (s.hide x).2.countExposed ≤ F.maxMultiDimensionMetricNumber := by
    by_contra hmax
    have himpl : s.exposeImpl F x pre name = _ := exposeImpl_of_limit hname (not_le.1 hmax)
    rw [hstep, himpl] at hcons
    have hx := ((hcons ((hide_aborted s x).trans hs)).named x).1 (by
      rw [setName_self]
      exact buildName_ne_nil pre hname)
    exact hhide.no_entry (hide_name s x) hx
  refine ⟨hmax, fun habort => ?_⟩
  by_contra hsome
  obtain ⟨y, hy⟩ := Option.ne_none_iff_exists'.1 hsome
  have himpl := exposeImpl_of_some hname hmax hy (F := F)
  rw [habort] at himpl
  have hret := (hright.exposed x pre name 0 rfl hs halive (congrArg Prod.fst himpl)).1 rfl
  rw [hstep, himpl] at hret
  exact hhide.no_entry (hide_name s x) hret.2

theorem call_right (h : Registered s) (hs : s.aborted = false)
    (halive : s.alive a.var = true) (hheeds : Heeds F s a) : Right F s a ∧ Inv (call F s a) := by
  cases a with
  | exposeAs x pre name => exact expose_right h hs halive hheeds
  | hide x =>
    have hstep : step F s (.hide x) = (s.hide x).2 := step_of_alive hs halive
    refine ⟨⟨?_, nofun⟩, fun _ => hide_registered h x⟩
    rw [hstep]
    exact fun n y hy => hide_lookup h hy
  | destroy x =>
    have hstep : step F s (.destroy x) = s.destroy x := step_of_alive hs halive
    rw [destroy_eq] at hstep
    refine ⟨⟨?_, nofun⟩, fun _ => ?_⟩
    · rw [hstep]
      exact fun n y hy => hide_lookup h hy
    · have hhide := hide_registered h x
      show Registered (s.destroy x)
      rw [destroy_eq]
      exact { hhide with }

theorem step_inv (s : State ι) (a : Act ι) (h : Inv s) (hheeds : Heeds F s a) : Inv (step F s a) := by
  by_cases hoff : s.aborted ∨ s.alive a.var = false
  · have hstep : step F s a = s := if_pos hoff
    rwa [hstep]
  · obtain ⟨hs, halive⟩ := not_or.1 hoff
    rw [Bool.not_eq_true] at hs
    rw [Bool.not_eq_false] at halive
    rw [step_of_alive hs halive]
    exact (call_right (h hs) hs halive hheeds).2

theorem sound_iff_heeds (s : State ι) (a : Act ι) (h : Inv s) : Sound F s a ↔ Heeds F s a := by
  constructor
  · intro hsound
    cases a with
    | exposeAs x pre name => exact fun hs => expose_heeds (h hs) hsound hs
    | hide x => trivial
    | destroy x => trivial
  · intro hheeds
    refine ⟨?_, fun hs => (step_inv s a h hheeds hs).consistent⟩
    by_cases hoff : s.aborted ∨ s.alive a.var = false
    · have hstep : step F s a = s := if_pos hoff
      constructor
      · rw [hstep]
        exact fun _ _ _ => id
      · rintro x pre name r rfl hs halive
        exact absurd hoff (by simp [Act.var, hs, halive])
    · obtain ⟨hs, halive⟩ := not_or.1 hoff
      rw [Bool.not_eq_true] at hs
      rw [Bool.not_eq_false] at halive
      exact (call_right (h hs) hs halive hheeds).1

/-- **The registry is consistent** in a run, and its calls are right, if and only if every `expose`
of the run finds room for a name that is not taken. -/
theorem run_sound_iff_heeds (F : Flags) (as : List (Act ι)) :
    Along (step F) (Sound F) (start ι) as ↔ Along (step F) (Heeds F) (start ι) as :=
  along_congr sound_iff_heeds step_inv (fun _ => start_registered) as

end Steps

/-- Two variables are exposed with one name: the second `expose` returns 0, and nothing is
entered. -/
theorem same_name_not_sound :
    ¬ ∀ (F : Flags) (as : List (Act (Fin 2))), Along (step F) (Sound F) (start (Fin 2)) as := by
  intro hall
  have h := hall ⟨1024, false⟩ [.exposeAs 0 [] ['q'], .exposeAs 1 [] ['q']]
  rw [along_congr sound_iff_heeds step_inv (fun _ => start_registered)] at h
  revert h
  decide

end Eabase.Var.MVariable
