import Aware.Lib.Keyed
import Aware.Member.Group

/-!
What a deletion that finds its member does to the members of a copy: the first one with the id is
gone, and the others are as they were.
-/
namespace Aware.Member

open Cluster (Outcome scanSlots)

def AlMember.named (mid : UInt32) (m : AlMember) : Bool :=
  m.mid == mid

def AlMemberChain.Counted (c : AlMemberChain) : Prop :=
  ∀ mc ∈ c.inl :: c.list, mc.m.countP AlMember.isUsed ≤ mc.cnt.toNat

instance (c : AlMemberChain) : Decidable c.Counted :=
  inferInstanceAs (Decidable (∀ _ ∈ _, _))

def DelOutcome (mid : UInt32) (k : ℕ) (s : Bool) (l : List AlMember) :
    Outcome (List AlMember) Bool Unit → Prop
  | .stopped _ l' =>
    (∃ m ∈ l.filter AlMember.isUsed, m.named mid = true) ∧
      l'.filter AlMember.isUsed = (l.filter AlMember.isUsed).eraseP (AlMember.named mid)
  | .done s' l' =>
    l' = l ∧ s' = (s || l.any AlMember.isUsed) ∧ k = l.countP AlMember.isUsed ∧
      ∀ m ∈ l.filter AlMember.isUsed, m.named mid = false
  | .overrun => l.countP AlMember.isUsed < k ∧ ∀ m ∈ l.filter AlMember.isUsed, m.named mid = false

section Scan
variable {mid : UInt32} {k : ℕ}
variable {o : Outcome (List AlMember) Bool Unit} {l : List MemberCluster} {n : ℕ}

theorem DelOutcome.cons_unused {s : Bool} {l : List AlMember}
    (h : DelOutcome mid k s l o) {m : AlMember} (hm : m.isUsed = false) :
    DelOutcome mid k s (m :: l) (o.map (m :: ·)) := by
  have hfilter : ∀ l : List AlMember,
      (m :: l).filter AlMember.isUsed = l.filter AlMember.isUsed := by
    intro l
    exact List.filter_cons_of_neg (by simp [hm])
  have hcount : (m :: l).countP AlMember.isUsed = l.countP AlMember.isUsed :=
    List.countP_cons_of_neg (by simp [hm])
  cases o with
  | stopped r l' =>
    simp only [DelOutcome, Outcome.map, hfilter] at h ⊢
    exact h
  | done s' l' =>
    simp only [DelOutcome, Outcome.map, hfilter, hcount, List.any_cons, hm, Bool.false_or] at h ⊢
    exact ⟨by rw [h.1], h.2⟩
  | overrun =>
    simp only [DelOutcome, Outcome.map, hfilter, hcount] at h ⊢
    exact h

theorem DelOutcome.cons_used {s : Bool} {l : List AlMember}
    (h : DelOutcome mid k true l o) {m : AlMember} (hm : m.isUsed = true)
    (hmid : m.named mid = false) : DelOutcome mid (k + 1) s (m :: l) (o.map (m :: ·)) := by
  have hfilter : ∀ l : List AlMember,
      (m :: l).filter AlMember.isUsed = m :: l.filter AlMember.isUsed :=
    fun l => List.filter_cons_of_pos hm
  have hcount : (m :: l).countP AlMember.isUsed = l.countP AlMember.isUsed + 1 :=
    List.countP_cons_of_pos hm
  cases o with
  | stopped r l' =>
    simp only [DelOutcome, Outcome.map, hfilter] at h ⊢
    obtain ⟨⟨m', hm', hmid'⟩, herase⟩ := h
    refine ⟨⟨m', List.mem_cons_of_mem _ hm', hmid'⟩, ?_⟩
    rw [List.eraseP_cons_of_neg (by simp [hmid]), herase]
  | done s' l' =>
    simp only [DelOutcome, Outcome.map, hfilter, hcount, List.any_cons, hm, Bool.true_or,
      Bool.or_true] at h ⊢
    exact ⟨by rw [h.1], h.2.1, by rw [h.2.2.1], List.forall_mem_cons.mpr ⟨hmid, h.2.2.2⟩⟩
  | overrun =>
    simp only [DelOutcome, Outcome.map, hfilter, hcount] at h ⊢
    exact ⟨Nat.succ_lt_succ h.1, List.forall_mem_cons.mpr ⟨hmid, h.2⟩⟩

theorem scanSlots_del (mid : UInt32) {l : List AlMember}
    (hk : l.countP AlMember.isUsed ≤ k) (j : ℕ) (s : Bool) :
    DelOutcome mid k s l (scanSlots AlMember.isUsed (delBody mid) l k j s) := by
  induction l generalizing k j s with
  | nil =>
    cases k with
    | zero => exact ⟨rfl, by simp, by simp, by simp⟩
    | succ k => exact ⟨Nat.succ_pos k, by simp⟩
  | cons m l ih =>
    cases hm : m.isUsed with
    | false =>
      rw [List.countP_cons_of_neg (by simp [hm])] at hk
      cases k with
      | zero =>
        have hdone := (ih hk j s).cons_unused hm
        rwa [Cluster.scanSlots_zero] at hdone ⊢
      | succ k =>
        simp only [scanSlots, hm, Bool.false_eq_true, if_false]
        exact (ih hk _ _).cons_unused hm
    | true =>
      rw [List.countP_cons_of_pos hm] at hk
      cases k with
      | zero => omega
      | succ k =>
        simp only [scanSlots, hm, if_true, delBody]
        by_cases hmid : m.mid = mid
        · rw [if_pos hmid]
          have hnamed : m.named mid = true := by simp [AlMember.named, hmid]
          refine ⟨⟨m, by simp [hm], hnamed⟩, ?_⟩
          rw [List.filter_cons_of_pos hm, List.eraseP_cons_of_pos hnamed]
          simp
        · rw [if_neg hmid]
          exact (ih (by omega) _ true).cons_used hm (by simp [AlMember.named, hmid])

def hits (mid : UInt32) (mc : MemberCluster) : ℕ :=
  (mc.m.filter AlMember.isUsed).countP (AlMember.named mid)

theorem scan_del_cases (mid : UInt32) {mc : MemberCluster}
    (hmc : mc.m.countP AlMember.isUsed ≤ mc.cnt.toNat) :
    (mc.scan AlMember.isUsed (delBody mid) 0 false = .done (mc.m.any AlMember.isUsed) mc ∧
        hits mid mc = 0 ∧ mc.Exact AlMember.isUsed ∧
        ∀ rest, (mc.m.filter AlMember.isUsed ++ rest).eraseP (AlMember.named mid) =
          mc.m.filter AlMember.isUsed ++ rest.eraseP (AlMember.named mid)) ∨
      (∃ mc', mc.scan AlMember.isUsed (delBody mid) 0 false = .stopped () mc' ∧
        hits mid mc = hits mid mc' + 1 ∧ mc'.m.countP AlMember.isUsed < mc'.cnt.toNat ∧
        ∀ rest, (mc.m.filter AlMember.isUsed ++ rest).eraseP (AlMember.named mid) =
          mc'.m.filter AlMember.isUsed ++ rest) ∨
      mc.scan AlMember.isUsed (delBody mid) 0 false = .overrun ∧ hits mid mc = 0 ∧
        ¬ mc.Exact AlMember.isUsed := by
  have hslots := scanSlots_del mid hmc 0 false
  have hzero : (∀ m ∈ mc.m.filter AlMember.isUsed, m.named mid = false) → hits mid mc = 0 :=
    fun hmiss => List.countP_eq_zero.mpr fun m hm => by simp [hmiss m hm]
  rcases mc.scan_cases AlMember.isUsed (delBody mid) 0 false with
    ⟨s, l, hl, hwalk, hscan⟩ | ⟨r, l, hl, hwalk, hscan⟩ | ⟨hwalk, hscan⟩
  · rw [hwalk] at hslots
    obtain ⟨rfl, rfl, hexact, hmiss⟩ := hslots
    exact .inl ⟨hscan, hzero hmiss, hexact,
      fun rest => List.eraseP_append_right _ fun m hm => by simp [hmiss m hm]⟩
  · rw [hwalk] at hslots
    obtain ⟨⟨m, hm, hnamed⟩, herase⟩ := hslots
    refine .inr (.inl ⟨_, hscan, ?_, ?_, fun rest => ?_⟩)
    · have hpos : 0 < (mc.m.filter AlMember.isUsed).countP (AlMember.named mid) :=
        List.countP_pos_iff.mpr ⟨m, hm, hnamed⟩
      simp only [hits, herase, Keyed.countP_eraseP]
      omega
    · rw [List.countP_eq_length_filter] at hmc ⊢
      rw [herase, List.length_eraseP_of_mem hm hnamed]
      have := List.length_pos_of_mem hm
      simp only
      omega
    · rw [List.eraseP_append_left hnamed _ hm, herase]
  · rw [hwalk] at hslots
    exact .inr (.inr ⟨hscan, hzero hslots.2, fun hexact => absurd hslots.1 (hexact.le.not_gt)⟩)

def usedIn (l : List MemberCluster) : List AlMember :=
  (l.flatMap Cluster.m).filter AlMember.isUsed

@[simp] theorem usedIn_cons (mc : MemberCluster) (l : List MemberCluster) :
    usedIn (mc :: l) = mc.m.filter AlMember.isUsed ++ usedIn l := by
  simp [usedIn]

theorem members_eq_usedIn (c : AlMemberChain) : c.members = usedIn (c.inl :: c.list) := by
  simp [AlMemberChain.members, AlMemberChain.slots, usedIn]

/-- `n` deletions in a row find the id: no scan gets past a cluster that one of them has taken a
member from. -/
def Yields (mid : UInt32) (n : ℕ) : List MemberCluster → Prop
  | [] => n = 0
  | mc :: l => n ≤ hits mid mc ∨ hits mid mc = 0 ∧ mc.Exact AlMember.isUsed ∧ Yields mid n l

def Exhausts (mid : UInt32) (l : List MemberCluster) : Prop :=
  ∀ mc ∈ l, hits mid mc = 0 ∧ mc.Exact AlMember.isUsed

instance (mid : UInt32) (n : ℕ) : (l : List MemberCluster) → Decidable (Yields mid n l)
  | [] => inferInstanceAs (Decidable (_ = _))
  | _ :: l =>
    haveI := instDecidableYields mid n l
    inferInstanceAs (Decidable (_ ∨ _))

/-- What a deletion does to clusters: it takes the first member with the id, finds none, or
leaves the clusters. -/
def DelSpec (mid : UInt32) (l : List MemberCluster) : DelResult (List MemberCluster) → Prop
  | .hit l' => usedIn l' = (usedIn l).eraseP (AlMember.named mid) ∧
      (∀ mc ∈ l', mc.m.countP AlMember.isUsed ≤ mc.cnt.toNat) ∧ ¬ Exhausts mid l' ∧
      ∀ n, Yields mid n l' ↔ Yields mid (n + 1) l
  | .miss l' => usedIn l' = usedIn l ∧ Exhausts mid l
  | .fault => ¬ Yields mid 1 l ∧ ¬ Exhausts mid l

theorem yields_zero (mid : UInt32) (l : List MemberCluster) : Yields mid 0 l := by
  cases l with
  | nil => rfl
  | cons mc l => exact .inl (Nat.zero_le _)

theorem Yields.mono {m : ℕ} (h : Yields mid n l) (hle : m ≤ n) : Yields mid m l := by
  induction l with
  | nil => exact Nat.le_zero.mp (h ▸ hle)
  | cons mc l ih => exact h.imp hle.trans fun ⟨hzero, hexact, hl⟩ => ⟨hzero, hexact, ih hl⟩

theorem Yields.le_countP (h : Yields mid n l) : n ≤ (usedIn l).countP (AlMember.named mid) := by
  induction l with
  | nil => exact h.le
  | cons mc l ih =>
    rw [usedIn_cons, List.countP_append]
    rcases h with hle | ⟨-, -, hl⟩
    · exact hle.trans (Nat.le_add_right _ _)
    · exact (ih hl).trans (Nat.le_add_left _ _)

theorem yields_cons_of_exact {mc : MemberCluster}
    (hzero : hits mid mc = 0) (hexact : mc.Exact AlMember.isUsed) :
    Yields mid n (mc :: l) ↔ Yields mid n l := by
  simp only [Yields, hzero, hexact, true_and, Nat.le_zero]
  exact or_iff_right_of_imp fun hn => hn ▸ yields_zero mid l

section Spec
variable {mc : MemberCluster} {l : List MemberCluster} {d : DelResult (List MemberCluster)}

theorem DelSpec.cons (h : DelSpec mid l d) (hzero : hits mid mc = 0)
    (hexact : mc.Exact AlMember.isUsed)
    (herase : ∀ rest, (mc.m.filter AlMember.isUsed ++ rest).eraseP (AlMember.named mid) =
      mc.m.filter AlMember.isUsed ++ rest.eraseP (AlMember.named mid)) :
    DelSpec mid (mc :: l) (d.map (mc :: ·)) := by
  have hmisses : ∀ l, Exhausts mid (mc :: l) ↔ Exhausts mid l :=
    fun l => List.forall_mem_cons.trans (and_iff_right ⟨hzero, hexact⟩)
  cases d with
  | hit l' =>
    obtain ⟨hused, hcounted, hends, hyields⟩ := h
    refine ⟨by rw [usedIn_cons, usedIn_cons, herase, hused],
      List.forall_mem_cons.mpr ⟨hexact.ge, hcounted⟩, mt (hmisses l').mp hends, fun n => ?_⟩
    rw [yields_cons_of_exact hzero hexact, yields_cons_of_exact hzero hexact, hyields]
  | miss l' => exact ⟨by rw [usedIn_cons, usedIn_cons, h.1], (hmisses l).mpr h.2⟩
  | fault => exact ⟨by rw [yields_cons_of_exact hzero hexact]; exact h.1, mt (hmisses l).mp h.2⟩

theorem DelSpec.drop (h : DelSpec mid (mc :: l) (d.map (mc :: ·))) (hzero : hits mid mc = 0)
    (hexact : mc.Exact AlMember.isUsed) (hnone : mc.m.filter AlMember.isUsed = []) :
    DelSpec mid (mc :: l) (d.map id) := by
  cases d with
  | hit l' =>
    obtain ⟨hused, hcounted, hends, hyields⟩ := h
    rw [usedIn_cons, hnone, List.nil_append] at hused
    refine ⟨hused, (List.forall_mem_cons.mp hcounted).2, fun hm => ?_, fun n => ?_⟩
    · exact hends (List.forall_mem_cons.mpr ⟨⟨hzero, hexact⟩, hm⟩)
    · exact (yields_cons_of_exact hzero hexact).symm.trans (hyields n)
  | miss l' =>
    obtain ⟨hused, hmisses⟩ := h
    rw [usedIn_cons, hnone, List.nil_append] at hused
    exact ⟨hused, hmisses⟩
  | fault => exact h

theorem DelSpec.stop {mc' : MemberCluster} (hhits : hits mid mc = hits mid mc' + 1)
    (hcnt : mc'.m.countP AlMember.isUsed < mc'.cnt.toNat)
    (herase : ∀ rest, (mc.m.filter AlMember.isUsed ++ rest).eraseP (AlMember.named mid) =
      mc'.m.filter AlMember.isUsed ++ rest)
    (hl : ∀ mc ∈ l, mc.m.countP AlMember.isUsed ≤ mc.cnt.toNat) :
    DelSpec mid (mc :: l) (.hit (mc' :: l)) := by
  have hinexact : ¬ mc'.Exact AlMember.isUsed := fun hexact => absurd hcnt hexact.le.not_gt
  refine ⟨by rw [usedIn_cons, usedIn_cons, herase], List.forall_mem_cons.mpr ⟨hcnt.le, hl⟩,
    fun hm => hinexact (hm mc' List.mem_cons_self).2, fun n => ?_⟩
  simp only [Yields, hhits, hinexact, false_and, and_false, or_false, Nat.add_le_add_iff_right,
    Nat.add_eq_zero_iff, Nat.one_ne_zero]

theorem delSpec_fault (hzero : hits mid mc = 0) (hexact : ¬ mc.Exact AlMember.isUsed) :
    DelSpec mid (mc :: l) .fault :=
  ⟨by simp [Yields, hzero, hexact], fun h => hexact (h mc List.mem_cons_self).2⟩

theorem delList_spec (mid : UInt32)
    (hl : ∀ mc ∈ l, mc.m.countP AlMember.isUsed ≤ mc.cnt.toNat) : DelSpec mid l (delList mid l) := by
  induction l with
  | nil => exact ⟨rfl, by simp [Exhausts]⟩
  | cons mc l ih =>
    obtain ⟨hmc, hl⟩ := List.forall_mem_cons.mp hl
    rcases scan_del_cases mid hmc with ⟨hscan, hzero, hexact, herase⟩ |
      ⟨mc', hscan, hhits, hcnt, herase⟩ | ⟨hscan, hzero, hexact⟩
    · have hspec := (ih hl).cons hzero hexact herase
      simp only [delList, hscan]
      split
      · exact hspec
      · next hunused => exact hspec.drop hzero hexact (by simpa using hunused)
    · simp only [delList, hscan]
      exact .stop hhits hcnt herase hl
    · simp only [delList, hscan]
      exact delSpec_fault hzero hexact

end Spec

def AlMemberChain.clusters (c : AlMemberChain) : List MemberCluster :=
  c.inl :: c.list

theorem alMemberDel_spec {c : AlMemberChain} (hc : c.Counted) (mid : UInt32) :
    DelSpec mid c.clusters ((alMemberDel c mid).map AlMemberChain.clusters) := by
  obtain ⟨hinl, hlist⟩ := List.forall_mem_cons.mp hc
  rcases scan_del_cases mid hinl with ⟨hscan, hzero, hexact, herase⟩ |
    ⟨mc', hscan, hhits, hcnt, herase⟩ | ⟨hscan, hzero, hexact⟩
  · have hspec := (delList_spec mid hlist).cons hzero hexact herase
    simp only [alMemberDel, hscan]
    cases hdel : delList mid c.list <;> rw [hdel] at hspec <;> exact hspec
  · simp only [alMemberDel, hscan]
    exact .stop hhits hcnt herase hlist
  · simp only [alMemberDel, hscan]
    exact delSpec_fault hzero hexact

theorem Exhausts.not_yields (h : Exhausts mid l) : ¬ Yields mid 1 l := by
  induction l with
  | nil => simp [Yields]
  | cons mc l ih =>
    obtain ⟨⟨hzero, hexact⟩, hl⟩ := List.forall_mem_cons.mp h
    rw [yields_cons_of_exact hzero hexact]
    exact ih hl

section Chain
variable {c c' : AlMemberChain} (hc : c.Counted)
include hc

/-- A deletion that finds its member takes the first one with the id, and leaves the chain
counted; no deletion after it gets to the end. -/
theorem alMemberDel_hit_members (h : alMemberDel c mid = .hit c') :
    c'.members = c.members.eraseP (AlMember.named mid) ∧ c'.Counted ∧ ¬ Exhausts mid c'.clusters ∧
      ∀ n, Yields mid n c'.clusters ↔ Yields mid (n + 1) c.clusters := by
  have hspec := alMemberDel_spec hc mid
  rw [h] at hspec
  rw [members_eq_usedIn, members_eq_usedIn]
  exact hspec

theorem alMemberDel_miss_members (h : alMemberDel c mid = .miss c') :
    c'.members = c.members ∧ Exhausts mid c.clusters := by
  have hspec := alMemberDel_spec hc mid
  rw [h] at hspec
  rw [members_eq_usedIn, members_eq_usedIn]
  exact hspec

theorem alMemberDel_hit_iff (mid : UInt32) : (∃ c', alMemberDel c mid = .hit c') ↔ Yields mid 1 c.clusters := by
  have hspec := alMemberDel_spec hc mid
  cases hdel : alMemberDel c mid with
  | hit c' =>
    rw [hdel] at hspec
    exact iff_of_true ⟨c', rfl⟩ ((hspec.2.2.2 0).mp (yields_zero mid _))
  | miss c' =>
    rw [hdel] at hspec
    exact iff_of_false (by simp) hspec.2.not_yields
  | fault =>
    rw [hdel] at hspec
    exact iff_of_false (by simp) hspec.1

end Chain

end Scan

end Aware.Member
