import Aware.Member.Schedule

/-!
Which member `al_alg_geoip` chooses: the first one of the asked view, or the first one at all.
-/
namespace Aware.Member

open Cluster (Outcome visitSlots)

def firstAt (p : AlMember → Bool) : ℕ → List AlMember → Option (ℕ × AlMember)
  | _, [] => none
  | j, m :: l => if p m then some (j, m) else firstAt p (j + 1) l

def AlMember.serves (vid : UInt32) (m : AlMember) : Bool := m.live && m.viewid == vid

section FirstAt
variable {p : AlMember → Bool} {l : List AlMember} {j : ℕ}

theorem firstAt_eq_none : firstAt p j l = none ↔ ∀ m ∈ l, p m = false := by
  induction l generalizing j with
  | nil => simp [firstAt]
  | cons m l ih => cases hm : p m <;> simp [firstAt, hm, ih]

theorem firstAt_eq_some {q : ℕ} {m : AlMember} (h : firstAt p j l = some (q, m)) :
    ∃ i, q = j + i ∧ l[i]? = some m ∧ p m = true ∧
      ∀ i' < i, ∀ m', l[i']? = some m' → p m' = false := by
  induction l generalizing j with
  | nil => cases h
  | cons a l ih =>
    unfold firstAt at h
    split at h
    · rename_i ha
      cases h
      exact ⟨0, rfl, rfl, ha, fun i' hi' => absurd hi' (Nat.not_lt_zero i')⟩
    · rename_i ha
      obtain ⟨i, hq, hi, hp, hbefore⟩ := ih h
      refine ⟨i + 1, by omega, hi, hp, ?_⟩
      intro i' hi' m' hm'
      cases i' with
      | zero =>
        cases hm'
        simpa using ha
      | succ i' => exact hbefore i' (Nat.lt_of_succ_lt_succ hi') m' hm'

end FirstAt

def geoipChoice (vid : UInt32) (l : List AlMember) : Option (ℕ × AlMember) :=
  (firstAt (AlMember.serves vid) 0 l).or (firstAt AlMember.live 0 l)

theorem visit_geoip (vid : UInt32) (l : List AlMember) (j : ℕ) (best : Option (ℕ × AlMember)) :
    (visitSlots AlMember.isUsed (geoipBody vid) l j best).result =
      some ((firstAt (AlMember.serves vid) j l).or (best.or (firstAt AlMember.live j l)), l) := by
  induction l generalizing j best with
  | nil => cases best <;> rfl
  | cons m l ih =>
    cases hu : m.isUsed with
    | false =>
      have hrest := Outcome.result_map_cons (ih (j + 1) best) m
      simpa [visitSlots, hu, firstAt, AlMember.serves, AlMember.live] using hrest
    | true =>
      cases hup : m.isUp with
      | false =>
        have hrest := Outcome.result_map_cons (ih (j + 1) best) m
        simpa [visitSlots, geoipBody, hu, hup, firstAt, AlMember.serves, AlMember.live]
          using hrest
      | true =>
        by_cases hv : m.viewid = vid
        · simp [visitSlots, geoipBody, hu, hup, hv, firstAt, AlMember.serves, AlMember.live,
            Outcome.result]
        · have hrest := Outcome.result_map_cons
            (ih (j + 1) (if best = none then some (j, m) else best)) m
          cases best with
          | none =>
            simpa [visitSlots, geoipBody, hu, hup, hv, firstAt, AlMember.serves,
              AlMember.live] using hrest
          | some b =>
            simpa [visitSlots, geoipBody, hu, hup, hv, firstAt, AlMember.serves,
              AlMember.live] using hrest

variable {c : AlMemberChain} {m : AlMember}

theorem related_eq {c' : AlMemberChain} (h : c.Related Eq c') : c' = c := by
  have hcluster : ∀ {a b : MemberCluster}, a.Related Eq b → b = a := by
    rintro ⟨cnt, l, hl⟩ ⟨cnt', l', hl'⟩ ⟨hcnt, hm⟩
    rw [List.forall₂_eq_eq_eq] at hm
    cases hcnt
    cases hm
    rfl
  obtain ⟨hinl, hlist⟩ := h
  have hl : c'.list = c.list := by
    refine (List.forall₂_eq_eq_eq ▸ hlist.imp fun a b hab => (hcluster hab).symm : c.list = c'.list).symm
  cases c
  cases c'
  cases hcluster hinl
  cases hl
  rfl

theorem alAlgGeoip_eq (h : c.Exact) (margs : AlMargs) :
    alAlgGeoip c margs = some ((geoipChoice margs.vid c.slots).map Prod.fst,
      ((geoipChoice margs.vid c.slots).map fun b => margs.answer b.1 b.2).getD margs, c) := by
  obtain ⟨s, c', hscan, hrel, hv⟩ := h.scan_spec (geoipBody margs.vid) (P := Eq) (fun _ => rfl)
    (by
      intro j s a s' a' _ hb
      unfold geoipBody at hb
      split at hb
      · split at hb <;> cases hb
        rfl
      · cases hb
        rfl)
    (by
      intro j s a r a' _ hb
      unfold geoipBody at hb
      split at hb
      · split at hb <;> cases hb
        rfl
      · cases hb) none
  rw [visit_geoip, related_eq hrel, Option.none_or] at hv
  rw [related_eq hrel] at hscan
  have hs : geoipChoice margs.vid c.slots = s := by
    rw [geoipChoice]
    exact (Prod.mk.inj (Option.some.inj hv)).1
  rw [hs]
  cases s with
  | none => simp only [alAlgGeoip, hscan, Option.map_none, Option.getD_none]
  | some b => simp only [alAlgGeoip, hscan, Option.map_some, Option.getD_some]

theorem geoipChoice_live {vid : UInt32} {l : List AlMember} {j : ℕ}
    (h : geoipChoice vid l = some (j, m)) : l[j]? = some m ∧ m.live = true := by
  rcases Option.or_eq_some_iff.mp h with h | ⟨-, h⟩
  · obtain ⟨i, rfl, hi, hm, -⟩ := firstAt_eq_some h
    rw [AlMember.serves, Bool.and_eq_true] at hm
    exact ⟨(Nat.zero_add i).symm ▸ hi, hm.1⟩
  · obtain ⟨i, rfl, hi, hm, -⟩ := firstAt_eq_some h
    exact ⟨(Nat.zero_add i).symm ▸ hi, hm⟩

theorem alAlgGeoip_spec (h : c.Exact) (margs : AlMargs) :
    ∃ best margs', alAlgGeoip c margs = some (best, margs', c) ∧
      ∀ p, best = some p → ∃ m, c.slots[p]? = some m ∧ m.isUsed = true := by
  refine ⟨_, _, alAlgGeoip_eq h margs, ?_⟩
  intro p hp
  obtain ⟨⟨j, m⟩, hb, rfl⟩ := Option.map_eq_some_iff.mp hp
  obtain ⟨hslot, hlive⟩ := geoipChoice_live hb
  rw [AlMember.live, Bool.and_eq_true] at hlive
  exact ⟨m, hslot, hlive.1⟩

/-- What a geo lookup owes its caller for the member `m` in slot `j`: one of the asked view if
there is any, else the first, and its data. -/
structure Selected (c : AlMemberChain) (margs margs' : AlMargs) (j : ℕ) (m : AlMember) : Prop where
  slot : c.slots[j]? = some m
  live : m.live = true
  view : (∃ m' ∈ c.slots, m'.live = true ∧ m'.viewid = margs.vid) → m.viewid = margs.vid
  first : (∀ m' ∈ c.slots, m'.live = true → m'.viewid ≠ margs.vid) →
    ∀ i < j, ∀ m', c.slots[i]? = some m' → m'.live = false
  a : m.intype = dnsQA → margs' = { margs with
    queryType := m.intype, ttl := m.dnsttl, dataLen := .bytes 4, data := .a m.addr.naddr4 }
  aaaa : m.intype = dnsQAaaa → margs' = { margs with
    queryType := m.intype, ttl := m.dnsttl, dataLen := .bytes 16, data := .aaaa m.addr.naddr6 }

theorem AlMember.serves_iff {vid : UInt32} :
    m.serves vid = true ↔ m.live = true ∧ m.viewid = vid := by
  rw [AlMember.serves, Bool.and_eq_true, beq_iff_eq]

theorem selected_of_choice {margs : AlMargs} {j : ℕ}
    (h : geoipChoice margs.vid c.slots = some (j, m)) :
    Selected c margs (margs.answer j m) j m := by
  obtain ⟨hslot, hlive⟩ := geoipChoice_live h
  refine ⟨hslot, hlive, ?_, ?_, ?_, ?_⟩
  · rintro ⟨m', hm', hserves⟩
    rcases Option.or_eq_some_iff.mp h with h | ⟨hnone, -⟩
    · obtain ⟨i, -, -, hm, -⟩ := firstAt_eq_some h
      exact (AlMember.serves_iff.mp hm).2
    · have hfalse := firstAt_eq_none.mp hnone m' hm'
      rw [AlMember.serves_iff.mpr hserves] at hfalse
      cases hfalse
  · intro hnone i hi m' hm'
    rcases Option.or_eq_some_iff.mp h with h | ⟨-, h⟩
    · obtain ⟨k, -, hk, hm, -⟩ := firstAt_eq_some h
      obtain ⟨hup, hview⟩ := AlMember.serves_iff.mp hm
      exact absurd hview (hnone m (List.mem_of_getElem? hk) hup)
    · obtain ⟨k, rfl, -, -, hbefore⟩ := firstAt_eq_some h
      exact hbefore i (Nat.zero_add k ▸ hi) m' hm'
  · intro ha
    simp only [AlMargs.answer, ha, if_true]
  · intro haaaa
    have hne : dnsQAaaa ≠ dnsQA := by decide
    simp only [AlMargs.answer, haaaa, hne, if_true, if_false]

theorem geoip_selects {c : AlMemberChain} (h : c.Exact) (margs : AlMargs) :
    ∃ best margs', alAlgGeoip c margs = some (best, margs', c) ∧
      (best = none ↔ ∀ m ∈ c.slots, m.live = false) ∧
      ∀ j ∈ best, ∃ m, Selected c margs margs' j m := by
  refine ⟨_, _, alAlgGeoip_eq h margs, ?_, ?_⟩
  · rw [Option.map_eq_none_iff, geoipChoice, Option.or_eq_none_iff, firstAt_eq_none, firstAt_eq_none]
    refine ⟨And.right, fun hdown => ⟨?_, hdown⟩⟩
    intro m hm
    rw [AlMember.serves, hdown m hm, Bool.false_and]
  · intro j hj
    obtain ⟨⟨j, m⟩, hb, rfl⟩ := Option.map_eq_some_iff.mp hj
    rw [hb]
    exact ⟨m, selected_of_choice hb⟩

def geoMember (vid : UInt32) (naddr : BitVec 32) : AlMember :=
  { AlMember.zero with
    isUsed := true
    isUp := true
    viewid := vid
    dnsttl := 60
    intype := dnsQA
    addr := ⟨8, afInet, naddr, 0⟩ }

def geoChain : AlMemberChain :=
  ⟨⟨1, [.zero, .zero, geoMember 1 10, .zero, .zero, .zero, .zero, .zero], rfl⟩,
    [⟨1, [.zero, geoMember 7 11, .zero, .zero, .zero, .zero, .zero, .zero], rfl⟩]⟩

theorem geoip_selects_overflow :
    geoChain.Exact ∧ ∃ best margs',
      alAlgGeoip geoChain { blankMargs with vid := 7 } = some (best, margs', geoChain) ∧
        (best = none ↔ ∀ m ∈ geoChain.slots, m.live = false) ∧
        ∀ j ∈ best, ∃ m, Selected geoChain { blankMargs with vid := 7 } margs' j m :=
  ⟨by decide, geoip_selects (by decide) _⟩

example : (alAlgGeoip geoChain { blankMargs with vid := 7 }).map Prod.fst = some (some 9) := by
  decide

end Aware.Member
