import Aware.Lib.WeightedTurns
import Aware.Member.RoundRobin
import Aware.Member.Group
import Mathlib.Data.Finset.Sort

/-!
How often a pool of members is asked for each of them when its members do not change.
-/
namespace Aware.Member

open WeightedTurns

structure AlMemberChain.Empty (c : AlMemberChain) : Prop where
  cnt : c.inl.cnt = 0
  unused : ∀ m ∈ c.inl.m, m.isUsed = false
  list : c.list = []

def lookupRun (g : Groups) (fid gid : UInt32) (margs : ℕ → AlMargs) : ℕ → Option Groups
  | 0 => some g
  | t + 1 =>
    (lookupRun g fid gid margs t).bind fun g' =>
      (alMemberLookup g' fid gid (margs t)).map Lookup.groups

def lookupSlot (g : Groups) (fid gid : UInt32) (margs : ℕ → AlMargs) (t : ℕ) : Option ℕ :=
  (lookupRun g fid gid margs t).bind fun g' =>
    (alMemberLookup g' fid gid (margs t)).bind Lookup.slot

/-- In each run of as many lookups as the total weight, every member is returned as often as its
weight says. -/
def FairLookups (g : Groups) (fid gid : UInt32) (margs : ℕ → AlMargs) (c : AlMemberChain) : Prop :=
  ∀ k q m, c.slots[q]? = some m → m.isUsed = true →
    ((Finset.range c.totalWeight).filter fun t =>
      lookupSlot g fid gid margs (k * c.totalWeight + t) = some q).card = m.weight.toNat

def roundRobin (schd : UInt8) : Prop := ∃ alg, algOfSchd schd = some alg ∧ alg ≠ .geoip

theorem lookup_of_call {g : Groups} {fid gid : UInt32} {schd : UInt8} {c c' : AlMemberChain} {p : ℕ}
    (hg : g (alMakeKey fid gid) = some ⟨schd, c⟩) (hs : roundRobin schd)
    (hrr : alAlgRr c = some (some p, c')) (hcall : Call c p c') (margs : AlMargs) :
    ∃ margs', alMemberLookup g fid gid margs =
      some ⟨some p, margs', g.set (alMakeKey fid gid) (some ⟨schd, c'⟩)⟩ := by
  obtain ⟨alg, halg, hgeo⟩ := hs
  obtain ⟨m, hm, _⟩ := (hcall.used p).mpr hcall.picked
  have hfun : gAlgFun alg c margs = some (some p, margs, c') := by
    cases alg with
    | geoip => exact absurd rfl hgeo
    | _ => simp only [gAlgFun, alAlgWeight, alAlgRrWeight, hrr, Option.map_some]
  simp only [alMemberLookup, hg, halg, hfun, hm]
  exact ⟨_, rfl⟩

structure Pool (c₀ c : AlMemberChain) : Prop where
  ready : Ready c
  used : ∀ q, usedAt c q ↔ usedAt c₀ q
  weight : ∀ q, weightAt c q = weightAt c₀ q
  total : c.totalWeight = c₀.totalWeight

theorem Pool.step {c₀ c c' : AlMemberChain} {p : ℕ} (h : Pool c₀ c) (hcall : Call c p c') :
    Pool c₀ c' where
  ready := hcall.ready
  used q := (hcall.used q).trans (h.used q)
  weight q := (hcall.weight q).trans (h.weight q)
  total := hcall.total.trans h.total

section Run
variable {g : Groups} {fid gid : UInt32} {schd : UInt8} {c₀ : AlMemberChain}

theorem lookupRun_step {g' : Groups} {c : AlMemberChain} {margs : ℕ → AlMargs} {t : ℕ}
    (hs : roundRobin schd) (hW : c₀.totalWeight < 2 ^ 15) (hne : ∃ q, usedAt c₀ q)
    (hrun : lookupRun g fid gid margs t = some g')
    (hg : g' (alMakeKey fid gid) = some ⟨schd, c⟩) (hpool : Pool c₀ c) :
    ∃ p c', Call c p c' ∧ lookupSlot g fid gid margs t = some p ∧
      lookupRun g fid gid margs (t + 1) = some (g'.set (alMakeKey fid gid) (some ⟨schd, c'⟩)) := by
  obtain ⟨q, hq⟩ := hne
  obtain ⟨p, c', hrr, hcall⟩ := hpool.ready.call (hpool.total ▸ hW) ⟨q, (hpool.used q).mpr hq⟩
  obtain ⟨margs', hlookup⟩ := lookup_of_call hg hs hrr hcall (margs t)
  refine ⟨p, c', hcall, ?_, ?_⟩
  · simp only [lookupSlot, hrun, Option.bind_some, hlookup]
  · simp only [lookupRun, hrun, Option.bind_some, hlookup, Option.map_some]

theorem lookupRun_pool (hg : g (alMakeKey fid gid) = some ⟨schd, c₀⟩) (hs : roundRobin schd)
    (hready : Ready c₀) (hW : c₀.totalWeight < 2 ^ 15) (hne : ∃ q, usedAt c₀ q)
    (margs : ℕ → AlMargs) (t : ℕ) :
    ∃ g' c, lookupRun g fid gid margs t = some g' ∧
      g' (alMakeKey fid gid) = some ⟨schd, c⟩ ∧ Pool c₀ c := by
  induction t with
  | zero => exact ⟨g, c₀, rfl, hg, hready, fun _ => .rfl, fun _ => rfl, rfl⟩
  | succ t ih =>
    obtain ⟨g', c, hrun, hg', hpool⟩ := ih
    obtain ⟨p, c', hcall, _, hnext⟩ := lookupRun_step hs hW hne hrun hg' hpool
    exact ⟨_, c', hnext, Groups.set_self _ _ _, hpool.step hcall⟩

def positions (c : AlMemberChain) : Finset ℕ :=
  (Finset.range c.slots.length).filter fun q => (c.slots[q]?).any AlMember.isUsed

theorem mem_positions {c : AlMemberChain} {q : ℕ} : q ∈ positions c ↔ usedAt c q := by
  unfold positions usedAt
  rw [Finset.mem_filter, Finset.mem_range]
  cases h : c.slots[q]? with
  | none => simp
  | some m => simp [(List.getElem?_eq_some_iff.mp h).1]

theorem sum_positions (c : AlMemberChain) (f : AlMember → ℕ) :
    ∑ q ∈ positions c, (c.slots[q]?).elim 0 f = (c.members.map f).sum := by
  unfold positions AlMemberChain.members
  rw [Finset.sum_filter]
  induction c.slots with
  | nil => rfl
  | cons m l ih =>
    rw [List.length_cons, Finset.sum_range_succ']
    simp only [List.getElem?_cons_succ, List.getElem?_cons_zero, ih]
    cases hu : m.isUsed <;> simp [hu, Nat.add_comm]

theorem card_positions (c : AlMemberChain) : (positions c).card = c.members.length := by
  have h := sum_positions c fun _ => 1
  have hone : ∑ q ∈ positions c, (c.slots[q]?).elim 0 (fun _ => 1) = ∑ q ∈ positions c, 1 := by
    refine Finset.sum_congr rfl ?_
    intro q hq
    obtain ⟨m, hm, _⟩ := mem_positions.mp hq
    rw [hm, Option.elim_some]
  rw [hone, ← Finset.card_eq_sum_ones] at h
  simpa using h

def place {c : AlMemberChain} {n : ℕ} (hn : (positions c).card = n) : Fin n ↪o ℕ :=
  (positions c).orderEmbOfFin hn

section Place
variable {c : AlMemberChain} {n : ℕ} (hn : (positions c).card = n)

theorem usedAt_place (i : Fin n) : usedAt c (place hn i) :=
  mem_positions.mp ((positions c).orderEmbOfFin_mem hn i)

theorem exists_place {q : ℕ} (h : usedAt c q) : ∃ i, place hn i = q := by
  have hmem : q ∈ Set.range ((positions c).orderEmbOfFin hn) := by
    rw [Finset.range_orderEmbOfFin]
    exact mem_positions.mpr h
  exact hmem

theorem sum_weightAt : ∑ i, weightAt c (place hn i) = c.totalWeight :=
  calc ∑ i, weightAt c (place hn i)
      = ∑ q ∈ Finset.univ.map (place hn).toEmbedding, weightAt c q := (Finset.sum_map _ _ _).symm
    _ = ∑ q ∈ positions c, weightAt c q := by
        rw [place, Finset.map_orderEmbOfFin_univ]
    _ = c.totalWeight := sum_positions c _

end Place

/-- The lookups of a pool are turns of the smooth weighted round robin in 16 bits. -/
theorem exists_turns (hg : g (alMakeKey fid gid) = some ⟨schd, c₀⟩) (hs : roundRobin schd)
    (hready : Ready c₀) (hstart : ∀ q, usedAt c₀ q → currentAt c₀ q = 0)
    (hW : c₀.totalWeight < 2 ^ 15) (hne : ∃ q, usedAt c₀ q) (margs : ℕ → AlMargs)
    {n : ℕ} (hn : (positions c₀).card = n) :
    ∃ r : Turns (2 ^ 16) fun i => weightAt c₀ (place hn i),
      ∀ t, lookupSlot g fid gid margs t = some (place hn (r.pick t)) := by
  choose G C hrun hG hpool using lookupRun_pool hg hs hready hW hne margs
  have hstep : ∀ t, ∃ i, Call (C t) (place hn i) (C (t + 1)) ∧
      lookupSlot g fid gid margs t = some (place hn i) := by
    intro t
    obtain ⟨p, c', hcall, hslot, hnext⟩ := lookupRun_step hs hW hne (hrun t) (hG t) (hpool t)
    have hc' : C (t + 1) = c' := by
      have hGt := hG (t + 1)
      rw [hrun (t + 1), Option.some.injEq] at hnext
      rw [hnext, Groups.set_self] at hGt
      simpa using hGt.symm
    obtain ⟨i, rfl⟩ := exists_place hn (((hpool t).used p).mp hcall.picked)
    exact ⟨i, hc' ▸ hcall, hslot⟩
  choose pick hcall hslot using hstep
  have hC0 : C 0 = c₀ := by
    have h0 := hG 0
    rw [← Option.some.inj (hrun 0), hg] at h0
    simpa using h0.symm
  have hused : ∀ t i, usedAt (C t) (place hn i) :=
    fun t i => ((hpool t).used _).mpr (usedAt_place hn i)
  refine ⟨⟨fun t i => currentAt (C t) (place hn i), pick, ?_, ?_, ?_⟩, hslot⟩
  · intro i
    rw [hC0]
    exact hstart _ (usedAt_place hn i)
  · intro t
    have hw := (hpool t).weight
    refine ⟨?_, ?_⟩
    · intro i
      have := ((hcall t).best _ (hused t i)).1
      simpa only [hw] using this
    · intro i hi
      have := ((hcall t).best _ (hused t i)).2 ((place hn).strictMono hi)
      simpa only [hw] using this
  · intro t i
    have hcur := (hcall t).current _ (hused t i)
    simpa only [(hpool t).weight, (hpool t).total, sum_weightAt, EmbeddingLike.apply_eq_iff_eq]
      using hcur

end Run

section Load
variable {c₀ c : AlMemberChain} {rows : List (AlMemberConf × Option MemberCluster)}

theorem AlMemberChain.Empty.members (h : c.Empty) : c.members = [] := by
  simpa [AlMemberChain.members, AlMemberChain.slots, h.list] using h.unused

theorem AlMemberChain.Empty.exact (h : c.Empty) : c.Exact := by
  refine ⟨?_, by simp [h.list]⟩
  unfold Cluster.Exact
  rw [h.cnt, List.countP_eq_zero.mpr (by simpa using h.unused)]
  rfl

theorem load_members (h : alGroupLoadMember c₀ rows = some c) (hex : c₀.Exact) :
    c.Exact ∧ ∃ ms, List.Forall₂ (fun r m => ∃ m₀, m = fill r.1 m₀) rows ms ∧
      c.members.Perm (ms.reverse ++ c₀.members) := by
  induction rows generalizing c₀ with
  | nil =>
    cases h
    exact ⟨hex, [], .nil, .refl _⟩
  | cons r rows ih =>
    simp only [alGroupLoadMember, Option.bind_eq_some_iff] at h
    obtain ⟨c₁, hins, hload⟩ := h
    obtain ⟨hc, ms, hms, hperm⟩ := ih hload (alMemberInsert_exact hex hins)
    obtain ⟨m, _, hm⟩ := alMemberInsert_members hins
    refine ⟨hc, fill r.1 m :: ms, .cons ⟨m, rfl⟩ hms, ?_⟩
    rw [List.reverse_cons, List.append_assoc]
    exact hperm.trans (hm.append_left _)

section Empty
variable (h : alGroupLoadMember c₀ rows = some c) (h₀ : c₀.Empty)
include h h₀

theorem load_mem {m : AlMember}
    (hm : m ∈ c.members) : ∃ r ∈ rows, ∃ m₀, m = fill r.1 m₀ := by
  obtain ⟨_, ms, hms, hperm⟩ := load_members h h₀.exact
  rw [hperm.mem_iff, h₀.members, List.append_nil, List.mem_reverse] at hm
  clear hperm h
  induction hms with
  | nil => cases hm
  | cons hr _ ih =>
    rcases List.mem_cons.mp hm with rfl | hm
    · exact ⟨_, List.mem_cons_self, hr⟩
    · obtain ⟨r, hr, hfill⟩ := ih hm
      exact ⟨r, List.mem_cons_of_mem _ hr, hfill⟩

theorem load_sum {f : AlMember → ℕ}
    {k : AlMemberConf → ℕ} (hf : ∀ conf m, f (fill conf m) = k conf) :
    (c.members.map f).sum = (rows.map fun r => k r.1).sum := by
  obtain ⟨_, ms, hms, hperm⟩ := load_members h h₀.exact
  rw [(hperm.map f).sum_eq, h₀.members, List.append_nil, List.map_reverse, List.sum_reverse]
  clear hperm h
  induction hms with
  | nil => rfl
  | cons hr _ ih =>
    obtain ⟨m, rfl⟩ := hr
    simp only [List.map_cons, List.sum_cons, ih, hf]

theorem load_ready : Ready c := by
  refine ⟨(load_members h h₀.exact).1, ?_⟩
  intro m hm hu
  obtain ⟨r, _, m₀, rfl⟩ := load_mem h h₀ (List.mem_filter.mpr ⟨hm, hu⟩)
  exact ⟨rfl, rfl⟩

theorem load_usedAt {q : ℕ}
    (hq : usedAt c q) : currentAt c q = 0 ∧ ∃ r ∈ rows, weightAt c q = r.1.weight.toNat := by
  obtain ⟨m, hm, hu⟩ := hq
  obtain ⟨r, hr, m₀, rfl⟩ := load_mem h h₀ (List.mem_filter.mpr ⟨List.mem_of_getElem? hm, hu⟩)
  simp only [currentAt, weightAt, hm, Option.elim_some]
  exact ⟨rfl, r, hr, rfl⟩

theorem load_card :
    (positions c).card = rows.length := by
  rw [card_positions]
  simpa using load_sum h h₀ (f := fun _ => 1) (k := fun _ => 1) fun _ _ => rfl

end Empty

theorem load_pair_slots {r₁ r₂ : AlMemberConf × Option MemberCluster}
    (h : alGroupLoadMember c₀ [r₁, r₂] = some c) (h₀ : c₀.Empty) :
    ∃ m₁ m₂ rest, c.slots = fill r₁.1 m₁ :: fill r₂.1 m₂ :: rest ∧
      ∀ m ∈ rest, m.isUsed = false := by
  obtain ⟨⟨cnt, l, hl⟩, list⟩ := c₀
  obtain ⟨_, hunused, hlist⟩ := h₀
  obtain _ | ⟨m₁, _ | ⟨m₂, rest⟩⟩ := l
  · cases hl
  · cases hl
  · simp only [List.forall_mem_cons] at hunused
    obtain ⟨hm₁, hm₂, hrest⟩ := hunused
    cases hlist
    simp [alGroupLoadMember, alMemberInsert, Cluster.firstFree, Cluster.put, List.findIdx?_cons, hm₁,
      hm₂] at h
    subst h
    exact ⟨m₁, m₂, rest, by simp [AlMemberChain.slots], hrest⟩

theorem load_pair {r₁ r₂ : AlMemberConf × Option MemberCluster}
    (h : alGroupLoadMember c₀ [r₁, r₂] = some c) (h₀ : c₀.Empty) (hn : (positions c).card = 2) :
    weightAt c (place hn 0) = r₁.1.weight.toNat ∧ weightAt c (place hn 1) = r₂.1.weight.toNat := by
  obtain ⟨m₁, m₂, rest, hslots, hrest⟩ := load_pair_slots h h₀
  have hlt : ∀ i, place hn i < 2 := by
    intro i
    obtain ⟨m, hm, hu⟩ := usedAt_place hn i
    by_contra hge
    obtain ⟨q, hq⟩ := Nat.exists_eq_add_of_le (Nat.not_lt.mp hge)
    rw [hslots, hq, Nat.add_comm, List.getElem?_cons_succ, List.getElem?_cons_succ] at hm
    rw [hrest m (List.mem_of_getElem? hm)] at hu
    cases hu
  have hmono : place hn 0 < place hn 1 := (place hn).strictMono (by decide)
  have h1 := hlt 1
  have h0 : place hn 0 = 0 := by omega
  have h1 : place hn 1 = 1 := by omega
  simp only [weightAt, h0, h1, hslots, List.getElem?_cons_zero, List.getElem?_cons_succ,
    Option.elim_some]
  exact ⟨rfl, rfl⟩

end Load

theorem fairLookups_iff_fair {g : Groups} {fid gid : UInt32} {margs : ℕ → AlMargs}
    {c : AlMemberChain} {n : ℕ} (hn : (positions c).card = n)
    (r : Turns (2 ^ 16) fun i => weightAt c (place hn i))
    (hr : ∀ t, lookupSlot g fid gid margs t = some (place hn (r.pick t))) :
    FairLookups g fid gid margs c ↔ r.Fair := by
  have hcount : ∀ k i, ((Finset.range c.totalWeight).filter fun t =>
      lookupSlot g fid gid margs (k * c.totalWeight + t) = some (place hn i)).card =
        r.wins ((k + 1) * c.totalWeight) i - r.wins (k * c.totalWeight) i := by
    intro k i
    rw [Nat.succ_mul, r.wins_add, Nat.add_sub_cancel_left]
    simp only [hr, Option.some.injEq, EmbeddingLike.apply_eq_iff_eq]
  have hmono : ∀ k i, r.wins (k * c.totalWeight) i ≤ r.wins ((k + 1) * c.totalWeight) i := by
    intro k i
    rw [Nat.succ_mul, r.wins_add]
    exact Nat.le_add_right _ _
  unfold FairLookups Turns.Fair
  rw [sum_weightAt hn]
  refine forall_congr' fun k => ⟨?_, ?_⟩
  · intro hfair i
    obtain ⟨m, hm, hu⟩ := usedAt_place hn i
    have hk := hfair _ m hm hu
    rw [hcount] at hk
    have hw : weightAt c (place hn i) = m.weight.toNat := by
      rw [weightAt, hm, Option.elim_some]
    have hle := hmono k i
    change _ = _ + weightAt c (place hn i)
    omega
  · intro hfair q m hm hu
    obtain ⟨i, rfl⟩ := exists_place hn ⟨m, hm, hu⟩
    have hi : _ = _ + weightAt c (place hn i) := hfair i
    rw [hcount, hi, Nat.add_sub_cancel_left, weightAt, hm, Option.elim_some]

/-- The lookups are fair exactly when there is at most one member, or two whose weights differ by
a few times their greatest common divisor. -/
theorem lookup_fair_iff {c₀ c : AlMemberChain} {rows : List (AlMemberConf × Option MemberCluster)}
    (h₀ : c₀.Empty) (hload : alGroupLoadMember c₀ rows = some c)
    (hw : ∀ r ∈ rows, 1 ≤ r.1.weight.toNat)
    (hW : (rows.map fun r => r.1.weight.toNat).sum < 2 ^ 15)
    {g : Groups} {fid gid : UInt32} {schd : UInt8}
    (hg : g (alMakeKey fid gid) = some ⟨schd, c⟩) (hs : roundRobin schd) (margs : ℕ → AlMargs) :
    FairLookups g fid gid margs c ↔
      rows.length ≤ 1 ∨
        ∃ a b, (rows.map fun r => r.1.weight.toNat) = [a, b] ∧ Balanced a b := by
  have htotal : c.totalWeight = (rows.map fun r => r.1.weight.toNat).sum :=
    load_sum hload h₀ (f := fun m => m.weight.toNat) (k := fun conf => conf.weight.toNat)
      fun _ _ => rfl
  have hcard := load_card hload h₀
  rw [← htotal] at hW
  rcases Nat.eq_zero_or_pos rows.length with hlen | hlen
  · refine iff_of_true ?_ (.inl (by omega))
    intro k q m hm hu
    have hq := mem_positions.mpr ⟨m, hm, hu⟩
    rw [Finset.card_eq_zero.mp (hcard.trans hlen)] at hq
    cases hq
  · have hne : ∃ q, usedAt c q := by
      obtain ⟨q, hq⟩ := Finset.card_pos.mp (hcard ▸ hlen)
      exact ⟨q, mem_positions.mp hq⟩
    obtain ⟨r, hr⟩ := exists_turns hg hs (load_ready hload h₀)
      (fun q hq => (load_usedAt hload h₀ hq).1) hW hne margs hcard
    rw [fairLookups_iff_fair hcard r hr]
    have hpos : ∀ i, 1 ≤ weightAt c (place hcard i) := by
      intro i
      obtain ⟨_, row, hrow, hwt⟩ := load_usedAt hload h₀ (usedAt_place hcard i)
      rw [hwt]
      exact hw row hrow
    have hsum : 2 * ∑ i, weightAt c (place hcard i) < 2 ^ 16 := by
      rw [sum_weightAt hcard]
      omega
    obtain _ | ⟨r₁, _ | ⟨r₂, _ | ⟨r₃, rest⟩⟩⟩ := rows
    · cases hlen
    · exact iff_of_true (Turns.fair_of_one r) (.inl le_rfl)
    · obtain ⟨h1, h2⟩ := load_pair hload h₀ hcard
      have hpair : 2 * (weightAt c (place hcard 0) + weightAt c (place hcard 1)) < 2 ^ 16 := by
        rw [h1, h2]
        simp only [List.map_cons, List.map_nil, List.sum_cons, List.sum_nil] at htotal
        omega
      rw [Turns.fair_iff_balanced r hpair (hpos 0) (hpos 1), h1, h2]
      simp
    · refine iff_of_false (r.not_fair_of_three hsum hpos (by simp)) ?_
      simp

theorem initChain_zero_empty : (initChain zeroCluster).Empty := ⟨rfl, by decide, rfl⟩

theorem lookup_fair_two_one :
    FairLookups (fun _ => some ⟨0, poolOf [2, 1]⟩) 1 1 (fun _ => blankMargs) (poolOf [2, 1]) := by
  have hload : alGroupLoadMember (initChain zeroCluster) (poolRows [2, 1]) = some (poolOf [2, 1]) := by
    decide +kernel
  exact (lookup_fair_iff initChain_zero_empty hload (by decide) (by decide) rfl
    ⟨.rr, rfl, by decide⟩ _).mpr (.inr ⟨2, 1, by decide, by decide⟩)

theorem three_equal_unfair :
    (initChain zeroCluster).Empty ∧
      alGroupLoadMember (initChain zeroCluster) (poolRows [1, 1, 1]) = some (poolOf [1, 1, 1]) ∧
        ¬ FairLookups (fun _ => some ⟨0, poolOf [1, 1, 1]⟩) 1 1 (fun _ => blankMargs)
          (poolOf [1, 1, 1]) := by
  refine ⟨initChain_zero_empty, by decide +kernel, ?_⟩
  intro h
  have h0 := h 0 0 (fill (conf4 0 1 0) .zero) (by decide +kernel) rfl
  revert h0
  decide +kernel

end Aware.Member
