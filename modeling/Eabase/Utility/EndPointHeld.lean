import Eabase.Utility.EndPointValue

/-!
# The set of the extended endpoints, in every run

Whatever the endpoints are used for, also where one is overwritten that is a
handle: what is in the set is in use, no two objects in it have the same address,
and an object stays in it, with its address, until it is returned to the pool.
-/

namespace Eabase.Utility.EndPointHeld

open Lib Function List

open Utility.EndPointValue

variable {ε : Type*} [DecidableEq ε] {inetPton6 : Text → Option (List UInt8)}
  {s s' s'' : State ε} {e : ε} {p q r : ℕ} {a : Address} {w : EndPoint} {as : List (Act ε)}

/-- `embed_to` checks that the slot has 32 bits. -/
def SmallSlot (_ : State ε) (act : Act ε) : Prop :=
  ∀ p ∈ act.slot, p < 2 ^ 32

structure Kept (s : State ε) : Prop where
  live : ∀ q ∈ s.set, s.known q = true ∧ s.inUse q = true ∧ q < 2 ^ 32 ∧ 1 ≤ s.refCount q
  nodup : s.set.Nodup
  unique : ∀ q ∈ s.set, ∀ q' ∈ s.set, s.addr q = s.addr q' → q = q'

/-- A call that takes no slot from the pool, and returns some: the others are still there. -/
structure Keeps (s s' : State ε) : Prop where
  kept : Kept s → Kept s'
  stays : Kept s → ∀ q ∈ s.set, s'.inUse q = true → q ∈ s'.set ∧ s'.addr q = s.addr q
  mono : ∀ q, s'.inUse q = true → s.inUse q = true

omit [DecidableEq ε] in
theorem Keeps.trans (h : Keeps s s') (h' : Keeps s' s'') : Keeps s s'' := by
  constructor
  case kept => exact fun hs => h'.kept (h.kept hs)
  case stays =>
    intro hs q hq huse
    obtain ⟨hmem, haddr⟩ := h.stays hs q hq (h'.mono q huse)
    obtain ⟨hmem', haddr'⟩ := h'.stays (h.kept hs) q hmem huse
    exact ⟨hmem', haddr'.trans haddr⟩
  case mono => exact fun q huse => h.mono q (h'.mono q huse)

omit [DecidableEq ε] in
theorem keeps_of_eq (hset : s'.set = s.set) (haddr : s'.addr = s.addr) (hknown : s'.known = s.known)
    (huse : s'.inUse = s.inUse) (href : ∀ q ∈ s.set, 1 ≤ s.refCount q → 1 ≤ s'.refCount q) :
    Keeps s s' := by
  constructor
  case kept =>
    intro h
    constructor
    case live =>
      rw [hset, hknown, huse]
      intro q hq
      obtain ⟨hk, hu, hlt, hr⟩ := h.live q hq
      exact ⟨hk, hu, hlt, href q hq hr⟩
    case nodup =>
      rw [hset]
      exact h.nodup
    case unique =>
      rw [hset, haddr]
      exact h.unique
  case stays =>
    rw [hset, haddr]
    exact fun _ q hq _ => ⟨hq, rfl⟩
  case mono =>
    rw [huse]
    exact fun _ hu => hu

theorem keeps_write (s : State ε) (e : ε) (v : Option EndPoint) : Keeps s (s.write e v) :=
  keeps_of_eq rfl rfl rfl rfl fun _ _ hr => hr

theorem keeps_assign (s : State ε) (e : ε) (v : Value) : Keeps s (s.assign e v) :=
  keeps_of_eq rfl rfl rfl rfl fun _ _ hr => hr

section

omit [DecidableEq ε]

theorem keeps_incRef (s : State ε) (q : ℕ) : Keeps s (incRef s q) := by
  refine keeps_of_eq rfl rfl rfl rfl fun r _ hr => ?_
  change 1 ≤ update s.refCount q (s.refCount q + 1) r
  by_cases hrq : r = q
  · rw [hrq, update_self]
    rw [hrq] at hr
    lia
  · rw [update_of_ne hrq]
    exact hr

theorem Kept.lookup_eq (h : Kept s) (hq : q ∈ s.set) : s.lookup q = some q := by
  cases hl : s.lookup q with
  | none => exact absurd rfl (of_decide_eq_false (Bool.eq_false_iff.2 (find?_eq_none.1 hl q hq)))
  | some r =>
    have heq : decide (s.addr r = s.addr q) = true :=
      find?_some (p := fun r => decide (s.addr r = s.addr q)) hl
    rw [h.unique r (mem_of_find?_eq_some hl) q hq (of_decide_eq_true heq)]

theorem keeps_decRef (s : State ε) (q : ℕ) : Keeps s (decRef s q) := by
  unfold decRef
  split
  case isTrue hlast =>
    -- The last reference: the object leaves the set, if it is there, and goes back to the pool.
    set s' := returnResource (erase (s.count q (-1)) q) q
    have huse : s'.inUse = update s.inUse q false := rfl
    have hsub : s'.set.Sublist s.set := by
      change (if s.lookup q = some q then s.set.erase q else s.set).Sublist s.set
      split
      case isTrue => exact erase_sublist
      case isFalse => exact List.Sublist.refl _
    have hother : ∀ r, r ≠ q → r ∈ s.set → r ∈ s'.set := by
      intro r hr hmem
      change r ∈ (if s.lookup q = some q then s.set.erase q else s.set)
      split
      case isTrue => exact (mem_erase_of_ne hr).2 hmem
      case isFalse => exact hmem
    have hgone : Kept s → q ∉ s'.set := by
      intro h hmem
      have hset : s'.set = s.set.erase q := if_pos (h.lookup_eq (hsub.subset hmem))
      rw [hset] at hmem
      exact h.nodup.not_mem_erase hmem
    constructor
    case kept =>
      intro h
      constructor
      case live =>
        intro r hr
        have hrq : r ≠ q := fun heq => hgone h (heq ▸ hr)
        obtain ⟨hk, hu, hlt, href⟩ := h.live r (hsub.subset hr)
        refine ⟨hk, ?_, hlt, ?_⟩
        · rw [huse, update_of_ne hrq]
          exact hu
        · change 1 ≤ update s.refCount q (s.refCount q + -1) r
          rw [update_of_ne hrq]
          exact href
      case nodup => exact h.nodup.sublist hsub
      case unique => exact fun r hr r' hr' => h.unique r (hsub.subset hr) r' (hsub.subset hr')
    case stays =>
      intro h r hr hu
      have hrq : r ≠ q := by
        rintro rfl
        rw [huse, update_self] at hu
        exact absurd hu nofun
      exact ⟨hother r hrq hr, rfl⟩
    case mono =>
      intro r hu
      by_cases hrq : r = q
      · rw [huse, hrq, update_self] at hu
        exact absurd hu nofun
      · rwa [huse, update_of_ne hrq] at hu
  case isFalse hmore =>
    refine keeps_of_eq rfl rfl rfl rfl fun r _ hr => ?_
    change 1 ≤ update s.refCount q (s.refCount q + -1) r
    by_cases hrq : r = q
    · rw [hrq, update_self]
      rw [hrq] at hr
      lia
    · rw [update_of_ne hrq]
      exact hr

theorem Keeps.refl (s : State ε) : Keeps s s :=
  keeps_of_eq rfl rfl rfl rfl fun _ _ hr => hr

end

theorem keeps_reset (s : State ε) (e : ε) : Keeps s (reset s e) := by
  unfold reset
  split
  case h_1 => exact .refl s
  case h_2 v _ =>
    refine Keeps.trans ?_ (keeps_write _ e (some IP_ANY))
    unfold release
    split
    case h_1 => exact .refl s
    case h_2 =>
      split
      case h_1 => exact .refl s
      case h_2 q _ => exact keeps_decRef s q

theorem keeps_setEndpoint (s : State ε) (e : ε) (w : EndPoint) : Keeps s (setEndpoint s e w) := by
  unfold setEndpoint
  split
  case h_1 => exact keeps_write s e _
  case h_2 =>
    split
    case h_1 => exact keeps_write s e _
    case h_2 q _ => exact (keeps_incRef s q).trans (keeps_write _ e _)

theorem keeps_overwrite (s : State ε) (e : ε) (ip : ℕ) (port : Option ℤ) :
    Keeps s (overwrite s e ip port) := by
  unfold overwrite
  split
  case h_1 => exact .refl s
  case h_2 => exact keeps_write s e _

/-! ## An address gets an object -/

/-- What `dedup` does with a new object in the slot `p`. -/
structure Deduped (s : State ε) (p : ℕ) (a : Address) (s' : State ε) (r : ℕ) : Prop where
  kept : Kept s'
  mem : r ∈ s'.set
  addr : s'.addr r = a
  counted : r = p ∨ 2 ≤ s'.refCount r
  points : s'.points = s.points
  stays : ∀ q ∈ s.set, q ∈ s'.set ∧ s'.addr q = s.addr q
  found : ∀ q ∈ s.set, s.addr q = a → r = q

omit [DecidableEq ε] in
theorem Kept.dedup (h : Kept s) (hp : s.inUse p = false) (hlt : p < 2 ^ 32) :
    Deduped s p a (dedup (newExtendedEndpoint s p a) p).1 (dedup (newExtendedEndpoint s p a) p).2 := by
  have hne : ∀ q ∈ s.set, q ≠ p := by
    rintro q hq rfl
    rw [(h.live q hq).2.1] at hp
    exact absurd hp nofun
  set s1 := newExtendedEndpoint s p a
  have haddr : ∀ q, q ≠ p → s1.addr q = s.addr q := fun q hq => update_of_ne hq ..
  have haddr_p : s1.addr p = a := update_self ..
  cases hlookup : s1.lookup p with
  | none =>
    have hnone : ∀ q ∈ s.set, s.addr q ≠ a := by
      intro q hq heq
      have hfalse := find?_eq_none.1 hlookup q hq
      rw [decide_eq_true_iff, haddr q (hne q hq), haddr_p] at hfalse
      exact hfalse heq
    have hdedup : EndPointValue.dedup s1 p = (s1.put p, p) := by
      unfold EndPointValue.dedup EndPointValue.insert
      rw [hlookup]
      exact if_pos rfl
    have hset : (s1.put p).set = p :: s.set := by
      apply if_neg
      rw [any_eq_true]
      rintro ⟨q, hq, heq⟩
      have heq' := of_decide_eq_true heq
      rw [haddr q (hne q hq), haddr_p] at heq'
      exact hnone q hq heq'
    rw [hdedup]
    constructor
    case kept =>
      constructor
      case live =>
        rw [hset]
        intro q hq
        by_cases hqp : q = p
        · rw [hqp]
          have hone : (s1.put p).refCount p = 1 := update_self ..
          exact ⟨update_self .., update_self .., hlt, hone.ge⟩
        · obtain ⟨hk, hu, hl, hr⟩ := h.live q ((mem_cons.1 hq).resolve_left hqp)
          refine ⟨(update_of_ne hqp ..).trans hk, (update_of_ne hqp ..).trans hu, hl, ?_⟩
          exact hr.trans (le_of_eq (update_of_ne hqp ..).symm)
      case nodup =>
        rw [hset]
        exact nodup_cons.2 ⟨fun hmem => hne p hmem rfl, h.nodup⟩
      case unique =>
        rw [hset]
        intro q hq q' hq' heq
        rcases mem_cons.1 hq with hqp | hmem
        · rcases mem_cons.1 hq' with hqp' | hmem'
          · exact hqp.trans hqp'.symm
          · rw [hqp] at heq
            exact absurd ((haddr q' (hne q' hmem')).symm.trans (heq.symm.trans haddr_p)) (hnone q' hmem')
        · rcases mem_cons.1 hq' with hqp' | hmem'
          · rw [hqp'] at heq
            exact absurd ((haddr q (hne q hmem)).symm.trans (heq.trans haddr_p)) (hnone q hmem)
          · apply h.unique q hmem q' hmem'
            rw [← haddr q (hne q hmem), ← haddr q' (hne q' hmem')]
            exact heq
    case mem =>
      rw [hset]
      exact mem_cons_self
    case addr => exact haddr_p
    case counted => exact .inl rfl
    case points => rfl
    case stays =>
      rw [hset]
      exact fun q hq => ⟨mem_cons_of_mem p hq, haddr q (hne q hq)⟩
    case found => exact fun q hq heq => absurd heq (hnone q hq)
  | some r =>
    have hr : r ∈ s.set := mem_of_find?_eq_some hlookup
    have hra : s.addr r = a := by
      have heq : decide (s1.addr r = s1.addr p) = true :=
        find?_some (p := fun q => decide (s1.addr q = s1.addr p)) hlookup
      rw [decide_eq_true_iff, haddr r (hne r hr), haddr_p] at heq
      exact heq
    obtain ⟨hk, hu, hl, href⟩ := h.live r hr
    have href1 : s1.refCount r = s.refCount r := update_of_ne (hne r hr) ..
    set s2 := returnResource { s1.count r 1 with refCount := update (s1.count r 1).refCount p 0 } p
    have hinsert : EndPointValue.insert s1 p = (s1.count r 1, r) := by
      unfold EndPointValue.insert
      rw [hlookup]
      exact if_neg (by rw [href1]; lia)
    have hdedup : EndPointValue.dedup s1 p = (s2, r) := by
      unfold EndPointValue.dedup
      rw [hinsert]
      exact if_neg (hne r hr)
    have hcount : ∀ q ∈ s.set, s2.refCount q = if q = r then s.refCount r + 1 else s.refCount q := by
      intro q hq
      change update (update s1.refCount r (s1.refCount r + 1)) p 0 q = _
      rw [update_of_ne (hne q hq)]
      split
      case isTrue heq => rw [heq, update_self, href1]
      case isFalse hqr =>
        rw [update_of_ne hqr]
        exact update_of_ne (hne q hq) ..
    rw [hdedup]
    constructor
    case kept =>
      constructor
      case live =>
        intro q hq
        obtain ⟨hk', hu', hl', href'⟩ := h.live q hq
        have huse : s2.inUse q = s.inUse q :=
          (update_of_ne (hne q hq) ..).trans (update_of_ne (hne q hq) ..)
        refine ⟨(update_of_ne (hne q hq) ..).trans hk', huse.trans hu', hl', ?_⟩
        rw [hcount q hq]
        split
        case isTrue heq =>
          rw [heq] at href'
          lia
        case isFalse => exact href'
      case nodup => exact h.nodup
      case unique =>
        intro q hq q' hq' heq
        apply h.unique q hq q' hq'
        rw [← haddr q (hne q hq), ← haddr q' (hne q' hq')]
        exact heq
    case mem => exact hr
    case addr => exact (haddr r (hne r hr)).trans hra
    case counted =>
      right
      rw [hcount r hr, if_pos rfl]
      lia
    case points => rfl
    case stays => exact fun q hq => ⟨hq, haddr q (hne q hq)⟩
    case found => exact fun q hq heq => h.unique r hr q hq (hra.trans heq.symm)

def Live (s : State ε) (e : ε) : Prop :=
  ∀ q, s.embeds e = some q → s.inUse q = true

theorem inUse_reset (huse : s.inUse r = true) (he : s.embeds e = some r → 2 ≤ s.refCount r) :
    (reset s e).inUse r = true := by
  unfold reset
  split
  case h_1 => exact huse
  case h_2 v hv =>
    unfold release
    split
    case h_1 => exact huse
    case h_2 q hq =>
      split
      case h_1 => exact huse
      case h_2 q' hq' =>
        have hqq : q' = q := by
          unfold State.addressResource at hq'
          split at hq'
          case isTrue => exact (Option.some.inj hq').symm
          case isFalse => exact absurd hq' nofun
        unfold decRef
        split
        case isTrue hlast =>
          have hne : r ≠ q' := by
            rintro rfl
            have hmore := he ((embeds_eq hv).trans (hqq ▸ hq))
            lia
          exact (update_of_ne hne ..).trans huse
        case isFalse => exact huse

/-- `create` embeds the object that has the address. -/
structure Created (s : State ε) (e : ε) (a : Address) (s' : State ε) (r : ℕ) : Prop where
  kept : Kept s'
  stays : ∀ q ∈ s.set, s'.inUse q = true → q ∈ s'.set ∧ s'.addr q = s.addr q
  points : s'.points e = some ⟨r, EXTENDED_ENDPOINT_PORT⟩
  found : ∀ q ∈ s.set, s.addr q = a → r = q
  held : s'.inUse r = true → r ∈ s'.set ∧ s'.addr r = a
  live : Live s e → s'.inUse r = true

theorem Kept.create (h : Kept s) (hp : s.inUse p = false) (hlt : p < 2 ^ 32) (e : ε) (a : Address) :
    ∃ r, Created s e a (create s e a p) r := by
  have hd := h.dedup (a := a) hp hlt
  set s1 := (EndPointValue.dedup (newExtendedEndpoint s p a) p).1
  set r := (EndPointValue.dedup (newExtendedEndpoint s p a) p).2
  have hkeeps : Keeps s1 (embedTo s1 e r) := (keeps_reset s1 e).trans (keeps_write _ e _)
  obtain ⟨hknown, huse, hr, -⟩ := hd.kept.live r hd.mem
  refine ⟨r, hkeeps.kept hd.kept, ?_, ?_, hd.found, ?_, ?_⟩
  · intro q hq hu
    obtain ⟨hmem, haddr⟩ := hd.stays q hq
    obtain ⟨hmem', haddr'⟩ := hkeeps.stays hd.kept q hmem hu
    exact ⟨hmem', haddr'.trans haddr⟩
  · change update (reset s1 e).points e (some ⟨r % 2 ^ 32, EXTENDED_ENDPOINT_PORT⟩) e = _
    rw [update_self, Nat.mod_eq_of_lt hr]
  · intro hu
    obtain ⟨hmem, haddr⟩ := hkeeps.stays hd.kept r hd.mem hu
    exact ⟨hmem, haddr.trans hd.addr⟩
  · intro hlive
    have hmore : s1.embeds e = some r → 2 ≤ s1.refCount r := by
      intro hembeds
      have hold : s.embeds e = some r := by
        unfold State.embeds at hembeds ⊢
        rwa [hd.points] at hembeds
      apply hd.counted.resolve_left
      intro hrp
      have hused := hlive r hold
      rw [hrp, hp] at hused
      exact absurd hused nofun
    exact inUse_reset huse hmore

/-! ## Every run -/

/-- What a step does to the set: what is still in use stays. -/
structure Stays (s s' : State ε) : Prop where
  kept : Kept s'
  stays : ∀ q ∈ s.set, s'.inUse q = true → q ∈ s'.set ∧ s'.addr q = s.addr q

omit [DecidableEq ε] in
theorem Keeps.toStays (h : Keeps s s') (hs : Kept s) : Stays s s' :=
  ⟨h.kept hs, h.stays hs⟩

theorem Kept.parse (h : Kept s) (e : ε) (o : Option Address) (d : Written) {slot : Option ℕ}
    (hslot : ∀ p ∈ slot, s.inUse p = false ∧ p < 2 ^ 32) : Stays s (parse s e o d slot) := by
  unfold EndPointValue.parse
  split
  case h_1 a p =>
    obtain ⟨hp, hlt⟩ := hslot p rfl
    obtain ⟨r, hcreated⟩ := h.create hp hlt e a
    have hassign := keeps_assign (EndPointValue.create s e a p) e (.extended a)
    exact ⟨hassign.kept hcreated.kept, hcreated.stays⟩
  case h_2 =>
    cases d with
    | nothing => exact (Keeps.refl s).toStays h
    | failed ip port => exact (keeps_overwrite s e ip port).toStays h
    | done ip port => exact ((keeps_overwrite s e ip (some port)).trans (keeps_assign _ e _)).toStays h

theorem Kept.step {act : Act ε} (h : Kept s) (hsmall : SmallSlot s act) :
    Stays s (step inetPton6 s act) := by
  unfold EndPointValue.step
  split
  case isFalse => exact (Keeps.refl s).toStays h
  case isTrue hok =>
    have hslot : ∀ p ∈ act.slot, s.inUse p = false ∧ p < 2 ^ 32 := fun p hp => ⟨hok.2.1 p hp, hsmall p hp⟩
    cases act with
    | construct e => exact ((keeps_write s e _).trans (keeps_assign _ e _)).toStays h
    | constructFrom e ip port => exact ((keeps_write s e _).trans (keeps_assign _ e _)).toStays h
    | constructIn e ss => exact ((keeps_write s e _).trans (keeps_assign _ e _)).toStays h
    | copy e rhs =>
      simp only [perform]
      split
      case h_1 => exact (Keeps.refl s).toStays h
      case h_2 => exact ((keeps_setEndpoint s e _).trans (keeps_assign _ e _)).toStays h
    | assign e rhs =>
      simp only [perform, EndPointValue.assign]
      split
      case h_1 => exact ((keeps_reset s e).trans (keeps_assign _ e _)).toStays h
      case h_2 =>
        exact ((keeps_reset s e).trans
        ((keeps_setEndpoint _ e _).trans (keeps_assign _ e _))).toStays h
    | str2endpoint e t p => exact h.parse e _ _ hslot
    | str2endpointAt e t port p => exact h.parse e _ _ hslot
    | sockaddr2endpoint e ss size p =>
      simp only [perform, EndPointValue.sockaddr2endpoint]
      split
      case isTrue =>
        exact ((keeps_reset s e).trans
        ((keeps_setEndpoint _ e _).trans (keeps_assign _ e _))).toStays h
      case isFalse => exact h.parse e _ _ hslot
    | reset e => exact ((keeps_reset s e).trans (keeps_assign _ e _)).toStays h
    | destroy e => exact ((keeps_reset s e).trans (keeps_write _ e none)).toStays h

omit [DecidableEq ε] in
theorem kept_start : Kept (start ε) where
  live _ hq := absurd hq not_mem_nil
  nodup := nodup_nil
  unique _ hq := absurd hq not_mem_nil

/-- **The set is kept in every run.** -/
theorem run_kept (h : Along (step inetPton6) SmallSlot (start ε) as) :
    Kept (runFrom (step inetPton6) (start ε) as) :=
  h.run (fun _ _ hs hsmall => (hs.step hsmall).kept) kept_start

def Held (inetPton6 : Text → Option (List UInt8)) (e : ε) (v : EndPoint) (s : State ε)
    (act : Act ε) : Prop :=
  (step inetPton6 s act).points e = some v ∧ ∀ q, v.handle = some q → (step inetPton6 s act).inUse q
    = true

theorem run_held {v : EndPoint} (hs : Kept s) (he : s.points e = some v)
    (hsmall : Along (step inetPton6) SmallSlot s as)
    (hheld : Along (step inetPton6) (Held inetPton6 e v) s as)
    (hset : ∀ q, v.handle = some q → q ∈ s.set) :
    Kept (runFrom (step inetPton6) s as) ∧ (runFrom (step inetPton6) s as).points e = some v ∧
      ∀ q, v.handle = some q →
        q ∈ (runFrom (step inetPton6) s as).set ∧ (runFrom (step inetPton6) s as).addr q = s.addr q := by
  induction as generalizing s with
  | nil => exact ⟨hs, he, fun q hq => ⟨hset q hq, rfl⟩⟩
  | cons act as ih =>
    have hstep : Stays s (EndPointValue.step inetPton6 s act) := hs.step hsmall.1
    have hstays : ∀ q, v.handle = some q → q ∈ (EndPointValue.step inetPton6 s act).set ∧
        (EndPointValue.step inetPton6 s act).addr q = s.addr q :=
      fun q hq => hstep.stays q (hset q hq) (hheld.1.2 q hq)
    obtain ⟨hkept, hpoint, hrest⟩ := ih hstep.kept hheld.1.1 hsmall.2 hheld.2 fun q hq => (hstays q hq).1
    exact ⟨hkept, hpoint, fun q hq => ⟨(hrest q hq).1, (hrest q hq).2.trans (hstays q hq).2⟩⟩

end Eabase.Utility.EndPointHeld
