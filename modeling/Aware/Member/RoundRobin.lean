import Mathlib.Data.UInt
import Aware.Member.Geoip

/-!
What one call of `al_alg_rr` does to a chain whose counters are exact.
-/
namespace Aware.Member

open Cluster (Visit Outcome visitSlots)

def visited (m : AlMember) : AlMember := if m.live then bump m else m

def effectiveTotal (l : List AlMember) : UInt32 :=
  (l.map fun m => if m.live then m.effectiveWeight.toUInt32 else 0).sum

def bestFrom (best : Option (ℕ × UInt16)) (j : ℕ) : List AlMember → Option (ℕ × UInt16)
  | [] => best
  | m :: l =>
    bestFrom (if m.live then better best j (visited m).currentWeight else best) (j + 1) l

theorem visit_rr (l : List AlMember) (j : ℕ) (s : RrState) :
    visitSlots AlMember.isUsed rrBody l j s =
      .done ⟨s.total + effectiveTotal l, bestFrom s.best j l⟩ (l.map visited) := by
  induction l generalizing j s with
  | nil =>
    rcases s with ⟨total, best⟩
    simp [visitSlots, effectiveTotal, bestFrom]
  | cons m l ih =>
    cases hu : m.isUsed with
    | false => simp [visitSlots, effectiveTotal, bestFrom, visited, AlMember.live, hu, ih, Outcome.map]
    | true =>
      cases hp : m.isUp with
      | false =>
        simp [visitSlots, effectiveTotal, bestFrom, visited, AlMember.live, rrBody, hu, hp, ih,
          Outcome.map]
      | true =>
        simp [visitSlots, effectiveTotal, bestFrom, visited, AlMember.live, rrBody, bump, hu, hp,
          ih, Outcome.map, UInt32.add_assoc]

@[simp] theorem visited_live (m : AlMember) : (visited m).live = m.live := by
  unfold visited
  split <;> rfl

/-- `best` is the first of the greatest current weights among the live members of `l`. -/
def Best (l : List AlMember) : Option (ℕ × UInt16) → Prop
  | none => ∀ m ∈ l, m.live = false
  | some (p, w) =>
    (∃ m, l[p]? = some m ∧ m.live = true ∧ m.currentWeight = w) ∧
      ∀ q m, l[q]? = some m → m.live = true →
        m.currentWeight ≤ w ∧ (q < p → m.currentWeight < w)

variable {l : List AlMember} {best : Option (ℕ × UInt16)}

variable {m : AlMember}

theorem getElem?_snoc {x : AlMember} {q : ℕ} :
    (l ++ [m])[q]? = some x ↔ l[q]? = some x ∨ q = l.length ∧ x = m := by
  rcases Nat.lt_trichotomy q l.length with h | h | h
  · simp [List.getElem?_append_left h, h.ne]
  · subst h
    simp [eq_comm]
  · have hleft : l[q]? = none := List.getElem?_eq_none h.le
    have hboth : (l ++ [m])[q]? = none := List.getElem?_eq_none (by rw [List.length_append]; exact h)
    simp [hleft, hboth, h.ne']

theorem Best.snoc (h : Best l best) (m : AlMember) :
    Best (l ++ [m]) (if m.live then better best l.length m.currentWeight else best) := by
  cases best with
  | none =>
    cases hm : m.live with
    | false => simpa [Best, or_imp, forall_and, hm] using h
    | true =>
      refine ⟨⟨m, by simp, hm, rfl⟩, ?_⟩
      intro q x hx hlive
      rcases getElem?_snoc.mp hx with hx | ⟨rfl, rfl⟩
      · rw [h x (List.mem_of_getElem? hx)] at hlive
        cases hlive
      · exact ⟨UInt16.le_refl _, fun hlt => absurd hlt (Nat.lt_irrefl _)⟩
  | some best =>
    obtain ⟨p, w⟩ := best
    obtain ⟨⟨y, hy, hylive, hyw⟩, hbest⟩ := h
    have hp : p < l.length := (List.getElem?_eq_some_iff.mp hy).1
    have hkeep (hle : m.live = true → m.currentWeight ≤ w) : Best (l ++ [m]) (some (p, w)) := by
      refine ⟨⟨y, getElem?_snoc.mpr (.inl hy), hylive, hyw⟩, ?_⟩
      intro q x hx hlive
      rcases getElem?_snoc.mp hx with hx | ⟨rfl, rfl⟩
      · exact hbest q x hx hlive
      · exact ⟨hle hlive, fun hlt => absurd hlt (Nat.not_lt.mpr hp.le)⟩
    cases hm : m.live with
    | false => exact hkeep (by simp [hm])
    | true =>
      simp only [if_true, better]
      split
      · rename_i hlt
        refine ⟨⟨m, by simp, hm, rfl⟩, ?_⟩
        intro q x hx hlive
        rcases getElem?_snoc.mp hx with hx | ⟨rfl, rfl⟩
        · have hxw := UInt16.lt_of_le_of_lt (hbest q x hx hlive).1 hlt
          exact ⟨UInt16.le_of_lt hxw, fun _ => hxw⟩
        · exact ⟨UInt16.le_refl _, fun hlt => absurd hlt (Nat.lt_irrefl _)⟩
      · rename_i hlt
        exact hkeep fun _ => UInt16.not_lt.mp hlt

theorem best_bestFrom (l' l : List AlMember) (h : Best l' best) :
    Best (l' ++ l.map visited) (bestFrom best l'.length l) := by
  induction l generalizing l' best with
  | nil => simpa [bestFrom] using h
  | cons m l ih =>
    have hs := ih (l' ++ [visited m]) (h.snoc (visited m))
    simpa [bestFrom] using hs

def AlMember.core (m : AlMember) : AlMember := { m with currentWeight := 0, effectiveWeight := 0 }

def OnlyWeights (a b : AlMember) : Prop := b.core = a.core

theorem OnlyWeights.isUsed {a b : AlMember} (h : OnlyWeights a b) : b.isUsed = a.isUsed := by
  have hcore : b.core.isUsed = a.core.isUsed := congrArg AlMember.isUsed h
  exact hcore

theorem core_eq_of_forall₂ {l' : List AlMember} (h : List.Forall₂ OnlyWeights l l') :
    l'.map AlMember.core = l.map AlMember.core := by
  induction h with
  | nil => rfl
  | cons hab _ ih => rw [List.map_cons, List.map_cons, hab, ih]

variable {c : AlMemberChain}

theorem members_core_eq {c' : AlMemberChain}
    (h : c'.slots.map AlMember.core = c.slots.map AlMember.core) :
    c'.members.map AlMember.core = c.members.map AlMember.core := by
  have hfilter : ∀ l : List AlMember,
      (l.filter AlMember.isUsed).map AlMember.core = (l.map AlMember.core).filter AlMember.isUsed :=
    fun l => by rw [List.filter_map]; rfl
  rw [AlMemberChain.members, AlMemberChain.members, hfilter, hfilter, h]

theorem alAlgRr_spec (h : c.Exact) :
    ∃ best c', alAlgRr c = some (best.map Prod.fst, c') ∧ c'.Exact ∧
      c'.slots.map AlMember.core = c.slots.map AlMember.core ∧
      Best (c.slots.map visited) best ∧
        c'.slots = match best with
          | none => c.slots.map visited
          | some (p, _) => (c.slots.map visited).modify p (charge (effectiveTotal c.slots)) := by
  obtain ⟨s, c₁, hscan, hrel, hvisit⟩ := h.scan_spec rrBody (P := OnlyWeights) (fun _ => rfl)
    (by
      intro j s a s' a' _ hb
      unfold rrBody at hb
      split at hb <;> cases hb <;> rfl)
    (by
      intro j s a r a' _ hb
      unfold rrBody at hb
      split at hb <;> cases hb) ⟨0, none⟩
  rw [visit_rr] at hvisit
  simp only [Outcome.result, UInt32.zero_add, Option.some.injEq, Prod.mk.injEq] at hvisit
  obtain ⟨rfl, hslots⟩ := hvisit
  have hbest : Best (c.slots.map visited) (bestFrom none 0 c.slots) :=
    best_bestFrom [] c.slots fun _ hm => absurd hm List.not_mem_nil
  have hex : c₁.Exact := hrel.exact (fun _ _ => OnlyWeights.isUsed) h
  have hcore := core_eq_of_forall₂ hrel.slots
  refine ⟨bestFrom none 0 c.slots, ?_⟩
  unfold alAlgRr
  rw [hscan]
  revert hbest
  cases bestFrom none 0 c.slots with
  | none => exact fun hbest => ⟨c₁, rfl, hex, hcore, hbest, hslots.symm⟩
  | some best =>
    intro hbest
    have hcharge := c₁.modify_related (P := OnlyWeights) (fun _ => rfl)
      (f := charge (effectiveTotal c.slots)) (fun _ => rfl) best.1
    refine ⟨_, rfl, hcharge.exact (fun _ _ => OnlyWeights.isUsed) hex,
      (core_eq_of_forall₂ hcharge.slots).trans hcore, hbest, ?_⟩
    rw [AlMemberChain.slots_modify, hslots]

theorem gAlgFun_spec (h : c.Exact) (alg : Alg) (margs : AlMargs) :
    ∃ j margs' c', gAlgFun alg c margs = some (j, margs', c') ∧ c'.Exact ∧
      c'.slots.map AlMember.core = c.slots.map AlMember.core ∧
        ∀ p, j = some p → ∃ m, c'.slots[p]? = some m ∧ m.isUsed = true := by
  have hrr : ∃ j c', alAlgRr c = some (j, c') ∧ c'.Exact ∧
      c'.slots.map AlMember.core = c.slots.map AlMember.core ∧
        ∀ p, j = some p → ∃ m, c'.slots[p]? = some m ∧ m.isUsed = true := by
    obtain ⟨best, c', hrr, hex, hcore, hbest, hslots⟩ := alAlgRr_spec h
    refine ⟨_, c', hrr, hex, hcore, ?_⟩
    rintro p hp
    obtain ⟨⟨p, w⟩, rfl, rfl⟩ := Option.map_eq_some_iff.mp hp
    obtain ⟨⟨m, hm, hlive, _⟩, _⟩ := hbest
    rw [AlMember.live, Bool.and_eq_true] at hlive
    exact ⟨charge (effectiveTotal c.slots) m, by rw [hslots, List.getElem?_modify_eq, hm]; rfl,
      hlive.1⟩
  obtain ⟨j, c', hrr, hex, hcore, hused⟩ := hrr
  cases alg with
  | geoip =>
    obtain ⟨best, margs', hgeo, hused⟩ := alAlgGeoip_spec h margs
    exact ⟨best, margs', c, hgeo, h, rfl, hused⟩
  | _ =>
    refine ⟨j, margs, c', ?_, hex, hcore, hused⟩
    simp only [gAlgFun, alAlgWeight, alAlgRrWeight, hrr, Option.map_some]

def AlMemberChain.totalWeight (c : AlMemberChain) : ℕ :=
  (c.members.map fun m => m.weight.toNat).sum

structure Ready (c : AlMemberChain) : Prop where
  exact : c.Exact
  up : ∀ m ∈ c.slots, m.isUsed = true → m.isUp = true ∧ m.effectiveWeight = m.weight

def usedAt (c : AlMemberChain) (q : ℕ) : Prop := ∃ m, c.slots[q]? = some m ∧ m.isUsed = true

def weightAt (c : AlMemberChain) (q : ℕ) : ℕ := (c.slots[q]?).elim 0 fun m => m.weight.toNat

def currentAt (c : AlMemberChain) (q : ℕ) : ℕ := (c.slots[q]?).elim 0 fun m => m.currentWeight.toNat

theorem effectiveTotal_toNat
    (h : ∀ m ∈ l, m.isUsed = true → m.isUp = true ∧ m.effectiveWeight = m.weight) :
    (effectiveTotal l).toNat =
      ((l.filter AlMember.isUsed).map fun m => m.weight.toNat).sum % 2 ^ 32 := by
  induction l with
  | nil => rfl
  | cons m l ih =>
    rw [List.forall_mem_cons] at h
    have ih := ih h.2
    simp only [effectiveTotal, List.map_cons, List.sum_cons, UInt32.toNat_add] at ih ⊢
    rw [ih]
    by_cases hu : m.isUsed = true
    · obtain ⟨hup, heff⟩ := h.1 hu
      simp [AlMember.live, hu, hup, heff]
    · simp [AlMember.live, hu]

theorem charge_toNat {total : UInt32} (h : total.toNat < 2 ^ 15) :
    (charge total m).currentWeight.toNat =
      (m.currentWeight.toNat + (2 ^ 16 - total.toNat)) % 2 ^ 16 := by
  have := m.currentWeight.toNat_lt
  simp only [charge, UInt32.toNat_toUInt16, UInt32.toNat_sub, UInt16.toNat_toUInt32]
  omega

def played (total : UInt32) (p q : ℕ) (m : AlMember) : AlMember :=
  if p = q then charge total (visited m) else visited m

theorem played_eq (total : UInt32) (p q : ℕ) (m : AlMember) :
    ∃ w e, played total p q m = { m with currentWeight := w, effectiveWeight := e } := by
  unfold played visited
  split <;> split <;> exact ⟨_, _, rfl⟩

theorem visited_of_ready (hu : m.isUsed = true)
    (hup : m.isUp = true ∧ m.effectiveWeight = m.weight) :
    visited m = { m with currentWeight := m.currentWeight + m.weight } := by
  obtain ⟨hup, heff⟩ := hup
  simp only [visited, AlMember.live, hu, hup, Bool.and_self, if_true, bump, heff, UInt16.lt_irrefl,
    if_false]

section Played
variable {c c' : AlMemberChain} {total : UInt32} {p : ℕ}

theorem usedAt_played (h : ∀ q, c'.slots[q]? = (c.slots[q]?).map (played total p q)) (q : ℕ) :
    usedAt c' q ↔ usedAt c q := by
  unfold usedAt
  rw [h]
  cases c.slots[q]? with
  | none => simp
  | some x =>
    obtain ⟨w, e, he⟩ := played_eq total p q x
    simp [he]

theorem weightAt_played (h : ∀ q, c'.slots[q]? = (c.slots[q]?).map (played total p q)) (q : ℕ) :
    weightAt c' q = weightAt c q := by
  unfold weightAt
  rw [h]
  cases c.slots[q]? with
  | none => rfl
  | some x =>
    obtain ⟨w, e, he⟩ := played_eq total p q x
    simp [he]

theorem totalWeight_eq (c : AlMemberChain) :
    c.totalWeight = (c.slots.map fun m => if m.isUsed then m.weight.toNat else 0).sum := by
  unfold AlMemberChain.totalWeight AlMemberChain.members
  induction c.slots with
  | nil => rfl
  | cons m l ih => cases hu : m.isUsed <;> simp [hu, ih]

theorem totalWeight_played (h : ∀ q, c'.slots[q]? = (c.slots[q]?).map (played total p q)) :
    c'.totalWeight = c.totalWeight := by
  rw [totalWeight_eq, totalWeight_eq]
  congr 1
  apply List.ext_getElem?
  intro q
  simp only [List.getElem?_map, h]
  cases c.slots[q]? with
  | none => rfl
  | some x =>
    obtain ⟨w, e, he⟩ := played_eq total p q x
    simp [he]

theorem Ready.after_call (h : Ready c) (hex : c'.Exact)
    (hslots : ∀ q, c'.slots[q]? = (c.slots[q]?).map (played total p q)) : Ready c' := by
  refine ⟨hex, ?_⟩
  intro m hm hu
  obtain ⟨q, hq⟩ := List.getElem?_of_mem hm
  rw [hslots, Option.map_eq_some_iff] at hq
  obtain ⟨x, hx, rfl⟩ := hq
  have hxu : x.isUsed = true := by
    obtain ⟨w, e, he⟩ := played_eq total p q x
    rwa [he] at hu
  have hup := h.up x (List.mem_of_getElem? hx) hxu
  have hv := visited_of_ready hxu hup
  unfold played
  split <;> simp only [charge, hv] <;> exact hup

theorem Ready.visited_toNat (h : Ready c) {q : ℕ} {m : AlMember} (hm : c.slots[q]? = some m)
    (hu : m.isUsed = true) :
    (visited m).currentWeight.toNat = (currentAt c q + weightAt c q) % 2 ^ 16 := by
  simp [visited_of_ready hu (h.up m (List.mem_of_getElem? hm) hu), currentAt, weightAt, hm]

theorem Ready.live (h : Ready c) {q : ℕ} {m : AlMember} (hm : c.slots[q]? = some m)
    (hu : m.isUsed = true) : (visited m).live = true := by
  rw [visited_live, AlMember.live, hu, (h.up m (List.mem_of_getElem? hm) hu).1]
  rfl

end Played

structure Call (c : AlMemberChain) (p : ℕ) (c' : AlMemberChain) : Prop where
  ready : Ready c'
  used : ∀ q, usedAt c' q ↔ usedAt c q
  weight : ∀ q, weightAt c' q = weightAt c q
  total : c'.totalWeight = c.totalWeight
  picked : usedAt c p
  best : ∀ q, usedAt c q →
    (currentAt c q + weightAt c q) % 2 ^ 16 ≤ (currentAt c p + weightAt c p) % 2 ^ 16 ∧
      (q < p →
        (currentAt c q + weightAt c q) % 2 ^ 16 < (currentAt c p + weightAt c p) % 2 ^ 16)
  current : ∀ q, usedAt c q → currentAt c' q =
    if q = p then ((currentAt c q + weightAt c q) % 2 ^ 16 + (2 ^ 16 - c.totalWeight)) % 2 ^ 16
    else (currentAt c q + weightAt c q) % 2 ^ 16

section Call
variable {c : AlMemberChain}

theorem Ready.rr_slots (h : Ready c) (hne : ∃ q, usedAt c q) :
    ∃ p w c', alAlgRr c = some (some p, c') ∧ c'.Exact ∧
      Best (c.slots.map visited) (some (p, w)) ∧
        ∀ q, c'.slots[q]? = (c.slots[q]?).map (played (effectiveTotal c.slots) p q) := by
  obtain ⟨best, c', hrr, hex, _, hbest, hslots⟩ := alAlgRr_spec h.exact
  cases best with
  | none =>
    obtain ⟨q, m, hm, hu⟩ := hne
    have hmem := List.mem_of_getElem? hm
    have hdead := hbest (visited m) (List.mem_map_of_mem hmem)
    rw [visited_live, AlMember.live, hu, (h.up m hmem hu).1] at hdead
    cases hdead
  | some best =>
    refine ⟨best.1, best.2, c', hrr, hex, hbest, ?_⟩
    intro q
    simp only [hslots, List.getElem?_modify, List.getElem?_map]
    cases c.slots[q]? <;> rfl

theorem Ready.call (h : Ready c) (hW : c.totalWeight < 2 ^ 15) (hne : ∃ q, usedAt c q) :
    ∃ p c', alAlgRr c = some (some p, c') ∧ Call c p c' := by
  obtain ⟨p, w, c', hrr, hex, ⟨⟨y, hy, hylive, rfl⟩, hbest⟩, hslots⟩ := h.rr_slots hne
  have htotal : (effectiveTotal c.slots).toNat = c.totalWeight := by
    rw [effectiveTotal_toNat h.up]
    exact Nat.mod_eq_of_lt (hW.trans (by decide))
  rw [List.getElem?_map, Option.map_eq_some_iff] at hy
  obtain ⟨y, hy, rfl⟩ := hy
  have hyu : y.isUsed = true := by
    rw [visited_live, AlMember.live, Bool.and_eq_true] at hylive
    exact hylive.1
  refine ⟨p, c', hrr, h.after_call hex hslots, usedAt_played hslots, weightAt_played hslots,
    totalWeight_played hslots, ⟨y, hy, hyu⟩, ?_, ?_⟩
  · rintro q ⟨m, hm, hu⟩
    rw [← h.visited_toNat hm hu, ← h.visited_toNat hy hyu]
    exact hbest q _ (by rw [List.getElem?_map, hm]; rfl) (h.live hm hu)
  · rintro q ⟨m, hm, hu⟩
    have hcur : currentAt c' q = (played (effectiveTotal c.slots) p q m).currentWeight.toNat := by
      simp only [currentAt, hslots, hm, Option.map_some, Option.elim_some]
    rw [hcur, ← h.visited_toNat hm hu, played]
    rcases eq_or_ne q p with rfl | hq
    · rw [if_pos rfl, if_pos rfl, charge_toNat (by rw [htotal]; exact hW), htotal]
    · rw [if_neg hq.symm, if_neg hq]

end Call

end Aware.Member
