import Aware.Service.Alone

/-!
# The search for a local port

The port counter goes round from the end of the port range to its start, but `port_init` may set
it behind the end. The number of tries is the length of the range.
-/
namespace Aware.Service
open Function Aware.Filter Aware.Sessions

def portInit (rand : UInt16) : UInt16 :=
  (rand &&& ~~~1) + 1

def InRange (p : UInt16) : Prop :=
  0 < p.toNat ∧ p.toNat ≤ 60000

section Search
variable {taken : UInt16 → Bool} {st p q : UInt16}

def tryOf (st p : UInt16) : ℕ :=
  if st.toNat < p.toNat then p.toNat - st.toNat
  else if st.toNat ≤ 60000 then p.toNat + 60000 - st.toNat
  else p.toNat + 65536 - st.toNat

def Outside (st p : UInt16) : Prop :=
  60000 < st.toNat ∧ (st.toNat < p.toNat ∨ p.toNat = 0)

def Inside (st p : UInt16) : Prop :=
  InRange p ∧ tryOf st p ≤ 60000

theorem tryPorts_none (n : ℕ) (st : UInt16) (h : (tryPorts taken n st).2 = none) :
    ∀ k < n, taken (htons (nextPort^[k + 1] st)) = true := by
  induction n generalizing st with
  | zero => exact fun k hk => absurd hk (Nat.not_lt_zero k)
  | succ n ih =>
    simp only [tryPorts] at h
    split at h
    · rename_i htaken
      intro k hk
      cases k with
      | zero => exact htaken
      | succ k =>
        rw [iterate_succ_apply]
        exact ih _ h k (Nat.lt_of_succ_lt_succ hk)
    · cases h

theorem tryPorts_some (n : ℕ) {lport : UInt16} (st : UInt16)
    (h : (tryPorts taken n st).2 = some lport) :
    ∃ k < n, lport = htons (nextPort^[k + 1] st) ∧ taken lport = false ∧
      ∀ i < k, taken (htons (nextPort^[i + 1] st)) = true := by
  induction n generalizing st with
  | zero => cases h
  | succ n ih =>
    simp only [tryPorts] at h
    split at h
    · rename_i htaken
      obtain ⟨k, hk, hport, hfree, hbefore⟩ := ih _ h
      refine ⟨k + 1, Nat.succ_lt_succ hk, hport, hfree, fun i hi => ?_⟩
      cases i with
      | zero => exact htaken
      | succ i =>
        rw [iterate_succ_apply]
        exact hbefore i (Nat.lt_of_succ_lt_succ hi)
    · rename_i hfree
      cases h
      exact ⟨0, Nat.succ_pos n, rfl, by simpa using hfree, fun i hi => absurd hi (Nat.not_lt_zero i)⟩

theorem nextPort_toNat (p : UInt16) :
    (nextPort p).toNat = if p.toNat = 60000 then 1 else (p.toNat + 1) % 65536 := by
  rw [nextPort]
  by_cases hp : p = 0xea60
  · subst hp
    rfl
  · have hne : p.toNat ≠ 60000 := fun h => hp (UInt16.toNat_inj.mp h)
    rw [if_neg hp, if_neg hne, UInt16.toNat_add, UInt16.toNat_one]

theorem iterate_toNat (st : UInt16) {k : ℕ} (hk : k ≤ 60000) :
    (nextPort^[k] st).toNat =
      if st.toNat ≤ 60000 then
        if st.toNat + k ≤ 60000 then st.toNat + k else st.toNat + k - 60000
      else if st.toNat + k < 65536 then st.toNat + k else st.toNat + k - 65536 := by
  have hst := st.toNat_lt
  induction k with
  | zero =>
    rw [iterate_zero_apply]
    split_ifs <;> omega
  | succ k ih =>
    rw [iterate_succ_apply', nextPort_toNat, ih (by omega)]
    split_ifs <;> omega

theorem tryOf_iterate (st : UInt16) {k : ℕ} (hk : k < 60000) : tryOf st (nextPort^[k + 1] st) = k + 1 := by
  have hst := st.toNat_lt
  have hport := iterate_toNat st (Nat.succ_le_of_lt hk)
  rw [tryOf, hport]
  split_ifs <;> omega

theorem inside_or_outside (st : UInt16) {k : ℕ} (hk : k < 60000) :
    Inside st (nextPort^[k + 1] st) ∨ Outside st (nextPort^[k + 1] st) := by
  have hst := st.toNat_lt
  have hport := iterate_toNat st (Nat.succ_le_of_lt hk)
  have htry := tryOf_iterate st hk
  rw [Inside, htry, InRange, Outside, hport]
  split_ifs <;> omega

theorem iterate_of_tryOf (h : Inside st p ∨ Outside st p) :
    ∃ k < 60000, tryOf st p = k + 1 ∧ nextPort^[k + 1] st = p := by
  have hst := st.toNat_lt
  have hp := p.toNat_lt
  have hbound : 1 ≤ tryOf st p ∧ tryOf st p ≤ 60000 := by
    rcases h with ⟨⟨hpos, hle⟩, htry⟩ | ⟨hbig, hout⟩
    · refine ⟨?_, htry⟩
      rw [tryOf]
      split_ifs <;> omega
    · rw [tryOf]
      split_ifs <;> omega
  obtain ⟨k, hk⟩ := Nat.exists_eq_add_of_le' hbound.1
  refine ⟨k, by omega, hk, ?_⟩
  rw [← UInt16.toNat_inj, iterate_toNat st (by omega)]
  rw [tryOf] at hk
  rcases h with ⟨⟨hpos, hle⟩, -⟩ | ⟨hbig, hout⟩
  · split_ifs at hk ⊢ <;> omega
  · split_ifs at hk ⊢ <;> omega

theorem tryOf_lt (hp : Outside st p) (hq : Inside st q) : tryOf st p < tryOf st q := by
  have hst := st.toNat_lt
  have hlt := p.toNat_lt
  obtain ⟨hbig, hout⟩ := hp
  obtain ⟨⟨hpos, hle⟩, -⟩ := hq
  rw [tryOf, tryOf]
  split_ifs <;> omega

theorem eq_of_tryOf (hp : Inside st p) (hq : Inside st q) (h : tryOf st p = tryOf st q) : p = q := by
  obtain ⟨k, -, hk, rfl⟩ := iterate_of_tryOf (.inl hp)
  obtain ⟨i, -, hi, rfl⟩ := iterate_of_tryOf (.inl hq)
  obtain rfl : k = i := by omega
  rfl

theorem taken_of_tryPorts (h : (tryPorts taken 60000 st).2 = none) (hp : Inside st p ∨ Outside st p) :
    taken (htons p) = true := by
  obtain ⟨k, hk, -, rfl⟩ := iterate_of_tryOf hp
  exact tryPorts_none 60000 st h k hk

theorem first_of_tryPorts {lport : UInt16} (h : (tryPorts taken 60000 st).2 = some lport) :
    ∃ p, (Inside st p ∨ Outside st p) ∧ lport = htons p ∧ taken lport = false ∧
      ∀ q, Inside st q ∨ Outside st q → tryOf st q < tryOf st p → taken (htons q) = true := by
  obtain ⟨k, hk, hport, hfree, hbefore⟩ := tryPorts_some 60000 st h
  refine ⟨_, inside_or_outside st hk, hport, hfree, fun q hq hlt => ?_⟩
  obtain ⟨i, hi, htry, rfl⟩ := iterate_of_tryOf hq
  rw [htry, tryOf_iterate st hk] at hlt
  exact hbefore i (by omega)

end Search

section Allocation
variable {ι : Type} (sys : System) (ports : Ports) (s : Session ι)

def refused (lport : UInt16) : Bool :=
  filterHits sys s.localAddr lport s.proto || portUsed ports s lport

def Matched (lport : UInt16) : Prop :=
  if s.inType then
    ∃ a, alFilterSearch sys.filters .inet6 (netOrder s.localAddr.ipv6) lport s.proto = some (some a)
  else ∃ a, alFilterSearch sys.filters .inet (netOrder s.localAddr.ipv4) lport s.proto = some (some a)

def Free (lport : UInt16) : Prop :=
  ¬ Matched sys s lport ∧ ¬ ports.Has ({ s with localPort := lport } : Session ι).key

/-- A port is found exactly when one of the range is free; it is one of these, and the table gets
the entry of the session. -/
def FindsFree (thread : UInt8) (st : UInt16) : Prop :=
  let b := alAlocateNewPortWithSession sys thread ports st s
  (b.entered = true ↔ ∃ p, InRange p ∧ Free sys ports s (htons p)) ∧
    (b.entered = true → ∃ p, InRange p ∧ Free sys ports s (htons p) ∧
      b.session = { s with localPort := htons p } ∧ b.ports = ports.insert b.session.key thread) ∧
    (b.entered = false → b.ports = ports)

/-- The counter is in the range or every port on the way to it is refused; the first port not
refused is free, and without one no port of the range is free. -/
structure Reliable (st : UInt16) : Prop where
  outside : ∀ p, Outside st p → refused sys ports s (htons p) = true
  first : ∀ p, Inside st p → refused sys ports s (htons p) = false →
    (∀ q, Inside st q → tryOf st q < tryOf st p → refused sys ports s (htons q) = true) →
    Free sys ports s (htons p)
  none : (∀ p, Inside st p → refused sys ports s (htons p) = true) →
    ∀ p, InRange p → ¬ Free sys ports s (htons p)

variable {sys ports s} {thread : UInt8} {st st' lport p : UInt16}

theorem htons_injective : Injective htons :=
  LeftInverse.injective htons_htons

theorem alocate_none (h : alAlocateNewPort sys ports st s = (st', none))
    (hp : Inside st p ∨ Outside st p) : refused sys ports s (htons p) = true := by
  unfold alAlocateNewPort at h
  exact taken_of_tryPorts (congrArg Prod.snd h) hp

theorem alocate_some (h : alAlocateNewPort sys ports st s = (st', some lport)) :
    ∃ p, (Inside st p ∨ Outside st p) ∧ lport = htons p ∧ refused sys ports s lport = false ∧
      ∀ q, Inside st q ∨ Outside st q → tryOf st q < tryOf st p → refused sys ports s (htons q) = true := by
  unfold alAlocateNewPort at h
  exact first_of_tryPorts (congrArg Prod.snd h)

theorem findsFree_of_none (h : alAlocateNewPort sys ports st s = (st', none)) :
    FindsFree sys ports s thread st ↔ ∀ p, InRange p → ¬ Free sys ports s (htons p) := by
  simp [FindsFree, alAlocateNewPortWithSession, h]

theorem findsFree_of_some (h : alAlocateNewPort sys ports st s = (st', some lport)) (hport : lport = htons p) :
    FindsFree sys ports s thread st ↔ InRange p ∧ Free sys ports s lport := by
  simp only [FindsFree, alAlocateNewPortWithSession, h]
  constructor
  · rintro ⟨-, hfound, -⟩
    obtain ⟨q, hq, hfree, hsession, -⟩ := hfound trivial
    have hsame : htons p = htons q := hport.symm.trans (congrArg Session.localPort hsession)
    rw [hport, htons_injective hsame]
    exact ⟨hq, hfree⟩
  · rintro ⟨hp, hfree⟩
    subst hport
    refine ⟨⟨fun _ => ⟨p, hp, hfree⟩, fun _ => trivial⟩,
      fun _ => ⟨p, hp, hfree, rfl, alPortInsert_eq _ _ _⟩, ?_⟩
    intro hf
    cases hf

theorem findsFree_iff_reliable : FindsFree sys ports s thread st ↔ Reliable sys ports s st := by
  cases halloc : alAlocateNewPort sys ports st s with
  | mk st' found =>
    cases found with
    | none =>
      rw [findsFree_of_none halloc]
      have hrefused := fun p hp => alocate_none (p := p) halloc hp
      constructor
      · intro hnone
        refine ⟨fun p hp => hrefused p (.inr hp), fun p hp hfree _ => ?_, fun _ => hnone⟩
        rw [hrefused p (.inl hp)] at hfree
        cases hfree
      · intro h
        exact h.none fun p hp => hrefused p (.inl hp)
    | some lport =>
      obtain ⟨p, hp, hport, hfree, hbefore⟩ := alocate_some halloc
      rw [findsFree_of_some halloc hport]
      subst hport
      constructor
      · rintro ⟨hrange, hgood⟩
        have hinside : Inside st p := by
          refine hp.resolve_right fun hout => ?_
          obtain ⟨hbig, hout⟩ := hout
          obtain ⟨hpos, hle⟩ := hrange
          omega
        refine ⟨fun q hq => hbefore q (.inr hq) (tryOf_lt hq hinside), fun q hq hqfree hfirst => ?_,
          fun hall => ?_⟩
        · have hsame : tryOf st q = tryOf st p := by
            rcases Nat.lt_trichotomy (tryOf st q) (tryOf st p) with hlt | heq | hlt
            · rw [hbefore q (.inl hq) hlt] at hqfree
              cases hqfree
            · exact heq
            · rw [hfirst p hinside hlt] at hfree
              cases hfree
          rw [eq_of_tryOf hq hinside hsame]
          exact hgood
        · rw [hall p hinside] at hfree
          cases hfree
      · intro h
        have hinside : Inside st p := by
          refine hp.resolve_right fun hout => ?_
          rw [h.outside p hout] at hfree
          cases hfree
        exact ⟨hinside.1, h.first p hinside hfree fun q hq hlt => hbefore q (.inl hq) hlt⟩

/-- The search does what it should exactly when the counter and its tests allow it. -/
theorem port_found_iff (sys : System) (ports : Ports) (s : Session ι) (thread : UInt8) (st : UInt16) :
    FindsFree sys ports s thread st ↔ Reliable sys ports s st :=
  findsFree_iff_reliable

section Start
variable (hst : st.toNat ≤ 60000)
include hst

theorem inside_of_inRange (hp : InRange p) : Inside st p := by
  refine ⟨hp, ?_⟩
  obtain ⟨hpos, hle⟩ := hp
  rw [tryOf]
  split_ifs <;> omega

theorem findsFree_of_agree
    (h : ∀ p, InRange p → (refused sys ports s (htons p) = false ↔ Free sys ports s (htons p))) :
    FindsFree sys ports s thread st := by
  refine findsFree_iff_reliable.mpr ⟨fun p hp => absurd hp.1 (by omega),
    fun p hp hfree _ => (h p hp.1).mp hfree, fun hall p hp hfree => ?_⟩
  exact absurd (hall p (inside_of_inRange hst hp)) (Bool.eq_false_iff.mp ((h p hp).mpr hfree))

end Start

def BothEnds (s : Session ι) : Prop :=
  if s.inType then s.remoteAddr.ipv6 ≠ 0 ∧ s.localAddr.ipv6 ≠ 0
  else s.remoteAddr.ipv4 ≠ 0 ∧ s.localAddr.ipv4 ≠ 0

theorem portUsed_iff (h : BothEnds s) :
    portUsed ports s lport = true ↔ ports.Has ({ s with localPort := lport } : Session ι).key := by
  cases hin : s.inType with
  | false =>
    simp only [BothEnds, hin, Bool.false_eq_true, if_false] at h
    simp only [portUsed, Session.key, hin, Bool.false_eq_true, if_false]
    exact (Ports.used_iff h.1 h.2).trans Ports.has_v4.symm
  | true =>
    simp only [BothEnds, hin, if_true] at h
    simp only [portUsed, Session.key, hin, if_true]
    exact (Ports.used_iff h.1 h.2).trans Ports.has_v6.symm

theorem filterHits_iff (hin : s.inType = false) :
    filterHits sys s.localAddr lport s.proto = true ↔ Matched sys s lport := by
  simp only [filterHits, Matched, hin, Bool.false_eq_true, if_false]
  split
  · rename_i a ha
    exact ⟨fun _ => ⟨a, ha⟩, fun _ => rfl⟩
  · rename_i hnone
    simpa using hnone

theorem refused_eq_false :
    refused sys ports s lport = false ↔
      ¬ filterHits sys s.localAddr lport s.proto = true ∧ ¬ portUsed ports s lport = true := by
  rw [refused, Bool.or_eq_false_iff, Bool.not_eq_true, Bool.not_eq_true]

theorem findsFree_inet (hst : st.toNat ≤ 60000) (hin : s.inType = false) (hends : BothEnds s) :
    FindsFree sys ports s thread st :=
  findsFree_of_agree hst fun p _ => by
    rw [refused_eq_false, filterHits_iff hin, portUsed_iff hends, Free]

theorem findsFree_inet6 (hst : st.toNat ≤ 60000) (hends : BothEnds s)
    (hsame : ∀ p, InRange p →
      (filterHits sys s.localAddr (htons p) s.proto = true ↔ Matched sys s (htons p))) :
    FindsFree sys ports s thread st :=
  findsFree_of_agree hst fun p hp => by
    rw [refused_eq_false, hsame p hp, portUsed_iff hends, Free]

theorem findsFree_zero_iff (hst : st.toNat ≤ 60000) (hin : s.inType = false) :
    FindsFree sys ports s thread st ↔ ((∃ p, InRange p ∧ Free sys ports s (htons p)) →
      ∃ p, InRange p ∧ Free sys ports s (htons p) ∧ portUsed ports s (htons p) = false) := by
  have hfree : ∀ p, refused sys ports s (htons p) = false ↔
      Free sys ports s (htons p) ∧ portUsed ports s (htons p) = false := by
    intro p
    rw [refused_eq_false, filterHits_iff hin, Free, Bool.not_eq_true]
    exact ⟨fun h => ⟨⟨h.1, not_has_of_not_used h.2⟩, h.2⟩, fun h => ⟨h.1.1, h.2⟩⟩
  rw [findsFree_iff_reliable]
  constructor
  · rintro h ⟨p, hp, hgood⟩
    by_contra hnone
    refine h.none (fun q hq => ?_) p hp hgood
    rw [← Bool.not_eq_false]
    exact fun hq' => hnone ⟨q, hq.1, (hfree q).mp hq'⟩
  · intro h
    refine ⟨fun p hp => absurd hp.1 (by omega), fun p _ hp _ => ((hfree p).mp hp).1,
      fun hall p hp hgood => ?_⟩
    obtain ⟨q, hq, hqfree⟩ := h ⟨p, hp, hgood⟩
    have htaken := hall q (inside_of_inRange hst hq)
    rw [(hfree q).mpr hqfree] at htaken
    cases htaken

end Allocation

theorem port_zero_found : ¬ FindsFree addressless ⟨[], []⟩ blankSession 1 (portInit 0xffff) := by
  have heval : alAlocateNewPort addressless ⟨[], []⟩ (portInit 0xffff) blankSession = (0, some 0) := by
    unfold alAlocateNewPort
    decide +kernel
  rw [findsFree_of_some (p := 0) heval rfl]
  rintro ⟨hrange, -⟩
  exact absurd hrange.1 (by decide)

end Aware.Service
