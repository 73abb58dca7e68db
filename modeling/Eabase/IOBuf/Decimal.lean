import Eabase.IOBuf.Sharing

/-!
# Decimals in an appender

`append_decimal` puts the digits of a `long` into a buffer on the stack, from
the last one on, and appends them. A negative number is negated in place first;
for `LONG_MIN` that is `LONG_MIN` again, and its digits come out as the
characters as far below `'0'` as they should be above.

Calls of an appender are interleaved with whatever other objects do. What they
leave in `buf()` is what was handed to `append`, in order.
-/

namespace Eabase.IOBuf

open Finset Function List

/-! ## The digits -/

/-- A `long` that becomes a `char`. -/
def toChar (x : ℤ) : Byte :=
  UInt8.ofBitVec (BitVec.ofInt 8 x)

/-- The `do` loop, with room for some digits in front of those in `buf`; the division of `long`s
truncates. -/
def decimalLoop : ℕ → ℤ → List Byte → List Byte
  | 0, _, buf => buf
  | room + 1, d, buf =>
    let q := d.tdiv 10
    let buf := toChar (d - q * 10 + 48) :: buf
    if q = 0 then buf else decimalLoop room q buf

/-- The end of `buf` that `append_decimal` appends; `-d` stays a `long`. -/
def decimalBytes (d : BitVec 64) : List Byte :=
  if d.toInt < 0 then 45 :: decimalLoop 24 (-d).toInt [] else decimalLoop 24 d.toInt []

/-- The canonical decimal representation. -/
def canonical (d : ℤ) : List Byte :=
  (if d < 0 then [45] else []) ++ (Nat.toDigits 10 d.natAbs).map fun c => UInt8.ofNat c.toNat

/-- `LONG_MIN`. -/
def longMin : BitVec 64 := BitVec.intMin 64

theorem decimalLoop_eq : ∀ {room n : ℕ} (buf : List Byte), 0 < room → n < 10 ^ room →
    decimalLoop room n buf = ((Nat.toDigits 10 n).map fun c => UInt8.ofNat c.toNat) ++ buf := by
  have hchar : ∀ k < 10, toChar ((k : ℕ) + 48) = .ofNat (Nat.digitChar k).toNat := by decide
  intro room
  induction room with
  | zero => exact fun _ hpos => absurd hpos (lt_irrefl 0)
  | succ room ih =>
    intro n buf _ hn
    have hq : (n : ℤ).tdiv 10 = (n / 10 : ℕ) := (Int.ofNat_tdiv n 10).symm
    have hdigit : (n : ℤ) - (n / 10 : ℕ) * 10 + 48 = (n % 10 : ℕ) + 48 := by lia
    rw [decimalLoop, hq, hdigit, hchar _ (Nat.mod_lt n (by decide)), Nat.toDigits_eq_if (by decide)]
    by_cases hsmall : n < 10
    · rw [if_pos hsmall, if_pos (by lia), Nat.mod_eq_of_lt hsmall]
      rfl
    · have hdiv : n / 10 < 10 ^ room := Nat.div_lt_of_lt_mul (by rwa [← Nat.pow_succ'])
      have hroom : 0 < room := by
        apply pos_of_ne_zero
        rintro rfl
        lia
      rw [if_neg hsmall, if_neg (by lia), ih _ hroom hdiv, map_append, append_assoc]
      rfl

variable {d : BitVec 64}

/-- **Every other number** has its canonical representation. -/
theorem decimalBytes_eq (h : d ≠ longMin) : decimalBytes d = canonical d.toInt := by
  have hlow : -2 ^ 63 ≤ d.toInt := BitVec.le_toInt d
  have hhigh : d.toInt < 2 ^ 63 := BitVec.toInt_lt
  have hloop : decimalLoop 24 d.toInt.natAbs []
      = (Nat.toDigits 10 d.toInt.natAbs).map fun c => .ofNat c.toNat := by
    rw [decimalLoop_eq [] (by decide) (by lia), append_nil]
  rw [decimalBytes, canonical]
  split
  next hneg =>
    rw [BitVec.toInt_neg_of_ne_intMin h, ← hloop, show (d.toInt.natAbs : ℤ) = -d.toInt by lia]
    rfl
  next hpos =>
    rw [← hloop, show (d.toInt.natAbs : ℤ) = d.toInt by lia]
    rfl

/-- `LONG_MIN` has as many characters as it should have, and not the right ones. -/
theorem decimalBytes_longMin : (decimalBytes longMin).length = (canonical longMin.toInt).length ∧
    decimalBytes longMin ≠ canonical longMin.toInt := by
  decide

theorem decimalBytes_eq_iff : decimalBytes d = canonical d.toInt ↔ d ≠ longMin := by
  constructor
  · rintro h rfl
    exact decimalBytes_longMin.2 h
  · exact decimalBytes_eq

theorem length_decimalBytes (d : BitVec 64) : (decimalBytes d).length = (canonical d.toInt).length := by
  by_cases h : d = longMin
  · rw [h]
    exact decimalBytes_longMin.1
  · rw [decimalBytes_eq h]

/-! ## Calls -/

/-- `append_decimal`. -/
def IOBufAppender.appendDecimal (d : BitVec 64) (A : IOBufAppender) (h : Heap) :
    ℤ × IOBufAppender × Heap :=
  A.append (decimalBytes d) h

inductive AppCall where
  | append (src : List Byte)
  | pushBack (c : Byte)
  | appendDecimal (d : BitVec 64)

namespace AppCall

def exec : AppCall → IOBufAppender → Heap → ℤ × IOBufAppender × Heap
  | .append src, A, h => A.append src h
  | .pushBack c, A, h => A.pushBack c h
  | .appendDecimal d, A, h => A.appendDecimal d h

def copied : AppCall → List Byte
  | .append src => src
  | .pushBack c => [c]
  | .appendDecimal d => decimalBytes d

/-- The bytes that the call is for. -/
def meant : AppCall → List Byte
  | .append src => src
  | .pushBack c => [c]
  | .appendDecimal d => canonical d.toInt

theorem copied_eq_meant_iff (call : AppCall) : call.copied = call.meant ↔
    call ≠ .appendDecimal longMin := by
  cases call with
  | append src => exact iff_of_true rfl nofun
  | pushBack c => exact iff_of_true rfl nofun
  | appendDecimal d => exact decimalBytes_eq_iff.trans ⟨fun h heq =>
    h (appendDecimal.inj heq), fun h heq => h (heq ▸ rfl)⟩

theorem length_copied (call : AppCall) : call.copied.length = call.meant.length := by
  cases call with
  | append src => rfl
  | pushBack c => rfl
  | appendDecimal d => exact length_decimalBytes d

/-- Bytes that are copied in a row are those that were meant iff each call copies the right ones. -/
theorem flatten_copied_iff (calls : List AppCall) :
    (calls.map copied).flatten = (calls.map meant).flatten ↔ AppCall.appendDecimal longMin ∉ calls := by
  have hlen : (calls.map copied).map List.length = (calls.map meant).map List.length := by
    rw [List.map_map, List.map_map]
    exact List.map_congr_left fun call _ => length_copied call
  constructor
  · intro h hmem
    have heq := List.map_inj_left.1 (List.eq_iff_flatten_eq.2 ⟨h, hlen⟩) _ hmem
    exact (copied_eq_meant_iff _).1 heq rfl
  · intro h
    exact congrArg List.flatten (List.map_congr_left fun call hcall =>
      (copied_eq_meant_iff call).2 fun heq => h (heq ▸ hcall))

end AppCall

inductive AppEvent (ι κ : Type) where
  | app (call : AppCall)
  | other (act : Action ι κ)

def AppEvent.call? {ι κ : Type} : AppEvent ι κ → Option AppCall
  | .app call => some call
  | .other _ => none

section

variable {ι κ : Type} [DecidableEq ι] [DecidableEq κ]

/-- A run, with what the calls of appender `a` return. -/
def World.events (a : κ) : World ι κ → List (AppEvent ι κ) → List ℤ × World ι κ
  | W, [] => ([], W)
  | W, .app call :: es =>
    let r := call.exec (W.app a) W.heap
    let rest := events a { W with heap := r.2.2, app := update W.app a r.2.1 } es
    (r.1 :: rest.1, rest.2)
  | W, .other act :: es => events a (W.step act) es

/-- The bytes in `a.buf()`. -/
def World.bufBytes (W : World ι κ) (a : κ) : List Byte :=
  let r := (W.app a).shrink W.heap
  r.2.content r.1.buf.refs

variable [Fintype ι] [Fintype κ] {W : World ι κ} {l : List Ptr} {c : ι → List Ptr}
    {S : Ptr → Option ℕ} {a : κ}

theorem WInv.bufBytes_eq (F : WInv W l c S) (a : κ) : W.bufBytes a = W.content (.inr a) := by
  rcases heq : (W.app a).shrink W.heap with ⟨A', h'⟩
  obtain ⟨l', S', R, -, hleft, hcontent⟩ := (F.focusApp a).shrink heq
  rw [World.bufBytes, heq]
  rwa [IOBufAppender.refs_eq hleft] at hcontent

/-- **One call** that returns 0 appends what it copies. -/
theorem WInv.appCall (F : WInv W l c S) (call : AppCall) {r : ℤ × IOBufAppender × Heap}
    (hr : call.exec (W.app a) W.heap = r) :
    let W' : World ι κ := { W with heap := r.2.2, app := update W.app a r.2.1 }
    ∃ l' S', WInv W' l' c S' ∧ (r.1 = 0 → W'.content (.inr a) = W.content (.inr a) ++ call.copied) := by
  have hdone : ∀ {l' : List Ptr} {S' : Ptr → Option ℕ},
      ARep false r.2.2 l' r.2.1 (W.otherRefs (.inr a)) (W.otherHeld c (.inr a)) S' →
      Shift S S' W.heap r.2.2 (W.otherRefs (.inr a)) (W.otherHeld c (.inr a)) →
      Appended W.heap.oom (W.heap.content (W.app a).refs) call.copied r.1 (r.2.2.content r.2.1.refs) →
      let W' : World ι κ := { W with heap := r.2.2, app := update W.app a r.2.1 }
      ∃ l' S', WInv W' l' c S' ∧ (r.1 = 0 → W'.content (.inr a) = W.content (.inr a) ++ call.copied) := by
    intro l' S' R hs happ
    refine ⟨l', S', (F.stepApp R hs).1, fun h0 => ?_⟩
    rcases happ with ⟨-, hnew⟩ | ⟨hrc, -⟩
    · simp only [World.content, update_self]
      exact hnew
    · exact absurd (h0.symm.trans hrc) (by decide)
  have R := F.focusApp a
  cases call with
  | append src | appendDecimal d =>
    obtain ⟨l', S', R', hs, happ⟩ := R.append hr
    exact hdone R' hs happ
  | pushBack b =>
    obtain ⟨l', S', R', hs, happ⟩ := R.pushBack hr
    exact hdone R' hs happ

/-- **A run** whose calls return 0 appends what they copy. -/
theorem WInv.events (F : WInv W l c S) (es : List (AppEvent ι κ))
    (hother : ∀ act, AppEvent.other act ∈ es → .inr a ∉ act.targets)
    (hok : ∀ rc ∈ (W.events a es).1, rc = 0) :
    ∃ l' c' S', WInv (W.events a es).2 l' c' S' ∧ (W.events a es).2.content (.inr a)
      = W.content (.inr a) ++ ((es.filterMap AppEvent.call?).map AppCall.copied).flatten := by
  induction es generalizing W l c S with
  | nil => exact ⟨l, c, S, F, (append_nil _).symm⟩
  | cons e es ih =>
    have hother' : ∀ act, .other act ∈ es → .inr a ∉ act.targets := fun act hact =>
      hother act (mem_cons_of_mem e hact)
    cases e with
    | app call =>
      obtain ⟨l1, S1, F1, hc⟩ := F.appCall (a := a) call rfl
      obtain ⟨l', c', S', F', hcontent⟩ := ih F1 hother' fun rc hrc => hok rc (mem_cons_of_mem _ hrc)
      refine ⟨l', c', S', F', hcontent.trans ?_⟩
      rw [hc (hok _ mem_cons_self), append_assoc]
      rfl
    | other act =>
      obtain ⟨l1, c1, S1, F1, hown⟩ := F.step act
      obtain ⟨l', c', S', F', hcontent⟩ := ih F1 hother' hok
      refine ⟨l', c', S', F', hcontent.trans ?_⟩
      rw [hown.content _ (hother act mem_cons_self)]
      rfl

/-- **What calls of an appender leave** in `buf()`, when all of them return 0: behind what was there
the strings, characters and canonical decimals, iff none of the decimals is `LONG_MIN`. -/
theorem bufBytes_decimals_iff (mem : Ptr → ℕ → Byte) (oom : Ptr → Bool) (acts : List (Action ι κ)) (a : κ)
    (es : List (AppEvent ι κ)) (hother : ∀ act, AppEvent.other act ∈ es → .inr a ∉ act.targets)
    (hok : ∀ rc ∈ (((World.init mem oom).run acts).events a es).1, rc = 0) :
    (((World.init mem oom).run acts).events a es).2.bufBytes a
        = ((World.init mem oom).run acts).bufBytes a ++
        ((es.filterMap AppEvent.call?).map AppCall.meant).flatten
      ↔ AppCall.appendDecimal longMin ∉ es.filterMap AppEvent.call? := by
  obtain ⟨l, c, S, F⟩ := (.init mem oom : WInv (.init mem oom : World ι κ) _ _ _).run acts
  obtain ⟨l', c', S', F', hcontent⟩ := F.events es hother hok
  rw [F'.bufBytes_eq, F.bufBytes_eq, hcontent, append_cancel_left_eq]
  exact AppCall.flatten_copied_iff _

end

/-- One appender, and memory without a limit. -/
abbrev Alone : World Empty Unit := World.init (fun _ _ => 0) fun _ => false

/-- `append("x=")`, `append_decimal(-40)`, `push_back(',')` and `append_decimal(1234)`. -/
def someCalls : List (AppEvent Empty Unit) :=
  [.app (.append [120, 61]), .app (.appendDecimal (-40)), .app (.pushBack 44), .app (.appendDecimal 1234)]

theorem bufBytes_decimals_iff_someCalls :
    ((Alone.run []).events () someCalls).2.bufBytes ()
        = (Alone.run []).bufBytes () ++ ((someCalls.filterMap AppEvent.call?).map AppCall.meant).flatten
      ↔ AppCall.appendDecimal longMin ∉ someCalls.filterMap AppEvent.call? :=
  bufBytes_decimals_iff _ _ [] () someCalls (by simp [someCalls]) (by decide)

/-- `append_decimal(LONG_MIN)` succeeds, with characters below `'0'` in the place of its digits. -/
theorem longMin_garbled : (Alone.events () [.app (.appendDecimal longMin)]).1 = [0] ∧
    (Alone.events () [.app (.appendDecimal longMin)]).2.bufBytes () ≠ canonical longMin.toInt := by
  decide

end Eabase.IOBuf
