import Aware.Lib.Runs
import Aware.Member.RoundRobin
import Aware.Member.Group

/-!
Histories of one group: its members are added, deleted and looked up in any order, starting
from whatever memory `al_group_insert` was given.
-/
namespace Aware.Member

open Cluster (Visit Outcome visitSlots)
open Runs

section Delete
variable {mid : UInt32}

theorem visit_del_miss {l : List AlMember} (h : ∀ m ∈ l, m.isUsed = true → m.mid ≠ mid) (j : ℕ)
    (s : Bool) :
    visitSlots AlMember.isUsed (delBody mid) l j s = .done (s || l.any AlMember.isUsed) l := by
  induction l generalizing j s with
  | nil => simp [visitSlots]
  | cons m l ih =>
    rw [List.forall_mem_cons] at h
    cases hu : m.isUsed with
    | false => simp [visitSlots, hu, ih h.2, Outcome.map]
    | true => simp [visitSlots, hu, delBody, h.1 hu, ih h.2, Outcome.map]

theorem visit_del_hit {l : List AlMember} (h : ∃ m ∈ l, m.isUsed = true ∧ m.mid = mid) (j : ℕ)
    (s : Bool) :
    ∃ l', visitSlots AlMember.isUsed (delBody mid) l j s = .stopped () l' ∧
      l'.countP AlMember.isUsed + 1 = l.countP AlMember.isUsed := by
  induction l generalizing j s with
  | nil => simp at h
  | cons m l ih =>
    by_cases hm : m.isUsed = true ∧ m.mid = mid
    · refine ⟨{ m with isUsed := false } :: l, by simp [visitSlots, delBody, hm], ?_⟩
      simp [hm.1]
    · have hl : ∃ m ∈ l, m.isUsed = true ∧ m.mid = mid := by
        simpa only [List.exists_mem_cons_iff, hm, false_or] using h
      cases hu : m.isUsed with
      | false =>
        obtain ⟨l', hl', hcount⟩ := ih hl (j + 1) s
        exact ⟨m :: l', by simp [visitSlots, hu, hl', Outcome.map], by simp [hu, hcount]⟩
      | true =>
        obtain ⟨l', hl', hcount⟩ := ih hl (j + 1) true
        have hne : m.mid ≠ mid := fun he => hm ⟨hu, he⟩
        exact ⟨m :: l', by simp [visitSlots, hu, delBody, hne, hl', Outcome.map],
          by simp [hu, hcount]⟩

theorem scan_del_miss {c : MemberCluster} (hc : c.Exact AlMember.isUsed)
    (h : ∀ m ∈ c.m, m.isUsed = true → m.mid ≠ mid) :
    c.scan AlMember.isUsed (delBody mid) 0 false = .done (c.m.any AlMember.isUsed) c := by
  obtain ⟨_, hs⟩ := hc.scan_eq (visit_del_miss h 0 false)
  exact hs

theorem scan_del_hit {c : MemberCluster} (hc : c.Exact AlMember.isUsed)
    (h : ∃ m ∈ c.m, m.isUsed = true ∧ m.mid = mid) :
    ∃ c' : MemberCluster, c.scan AlMember.isUsed (delBody mid) 0 false = .stopped () c' ∧
      ¬ c'.Exact AlMember.isUsed := by
  obtain ⟨l', hv, hcount⟩ := visit_del_hit h 0 false
  obtain ⟨_, hs⟩ := hc.scan_eq hv
  refine ⟨_, hs, ?_⟩
  intro hex
  unfold Cluster.Exact at hc hex
  simp only at hex
  omega

theorem delList_miss {l : List MemberCluster} (hc : ∀ mc ∈ l, mc.Exact AlMember.isUsed)
    (h : ∀ mc ∈ l, ∀ m ∈ mc.m, m.isUsed = true → m.mid ≠ mid) :
    delList mid l = .miss (l.filter fun mc => mc.m.any AlMember.isUsed) := by
  induction l with
  | nil => rfl
  | cons mc l ih =>
    rw [List.forall_mem_cons] at hc h
    simp only [delList, scan_del_miss hc.1 h.1, ih hc.2 h.2, DelResult.map, List.filter_cons]
    split <;> rfl

theorem delList_hit {l : List MemberCluster} (hc : ∀ mc ∈ l, mc.Exact AlMember.isUsed)
    (h : ∃ mc ∈ l, ∃ m ∈ mc.m, m.isUsed = true ∧ m.mid = mid) :
    ∃ l', delList mid l = .hit l' ∧ ∃ mc ∈ l', ¬ mc.Exact AlMember.isUsed := by
  induction l with
  | nil => simp at h
  | cons mc l ih =>
    rw [List.forall_mem_cons] at hc
    by_cases hm : ∃ m ∈ mc.m, m.isUsed = true ∧ m.mid = mid
    · obtain ⟨mc', hs, hex⟩ := scan_del_hit hc.1 hm
      exact ⟨mc' :: l, by simp only [delList, hs], mc', List.mem_cons_self, hex⟩
    · have hl := h
      simp only [List.exists_mem_cons_iff, hm, false_or] at hl
      obtain ⟨l', hdel, mc', hmem, hex⟩ := ih hc.2 hl
      have hmiss := scan_del_miss hc.1 fun m hmc hu he => hm ⟨m, hmc, hu, he⟩
      simp only [delList, hmiss, hdel, DelResult.map]
      split
      · exact ⟨_, rfl, mc', List.mem_cons_of_mem _ hmem, hex⟩
      · exact ⟨_, rfl, mc', hmem, hex⟩

def AlMemberChain.trimmed (c : AlMemberChain) : AlMemberChain :=
  { c with list := c.list.filter fun mc => mc.m.any AlMember.isUsed }

theorem AlMemberChain.trimmed_members (c : AlMemberChain) : c.trimmed.members = c.members := by
  simp only [AlMemberChain.members, AlMemberChain.slots, AlMemberChain.trimmed, List.filter_append]
  congr 1
  induction c.list with
  | nil => rfl
  | cons mc l ih =>
    cases hany : mc.m.any AlMember.isUsed with
    | false =>
      have hnone : mc.m.filter AlMember.isUsed = [] := by
        simpa [List.any_eq_false] using hany
      simp [hany, ih, hnone]
    | true => simp [hany, ih]

variable {c : AlMemberChain}

theorem AlMemberChain.Exact.trimmed (h : c.Exact) : c.trimmed.Exact :=
  ⟨h.1, fun mc hmc => h.2 mc (List.mem_filter.mp hmc).1⟩

theorem AlMemberChain.mem_members {m : AlMember} :
    m ∈ c.members ↔ (m ∈ c.inl.m ∨ ∃ mc ∈ c.list, m ∈ mc.m) ∧ m.isUsed = true := by
  simp [AlMemberChain.members, AlMemberChain.slots, or_and_right]

theorem alMemberDel_miss (hc : c.Exact) (h : ∀ m ∈ c.members, m.mid ≠ mid) :
    alMemberDel c mid = .miss c.trimmed := by
  have hinl : ∀ m ∈ c.inl.m, m.isUsed = true → m.mid ≠ mid :=
    fun m hm hu => h m (AlMemberChain.mem_members.mpr ⟨.inl hm, hu⟩)
  have hlist : ∀ mc ∈ c.list, ∀ m ∈ mc.m, m.isUsed = true → m.mid ≠ mid :=
    fun mc hmc m hm hu => h m (AlMemberChain.mem_members.mpr ⟨.inr ⟨mc, hmc, hm⟩, hu⟩)
  simp only [alMemberDel, scan_del_miss hc.1 hinl, delList_miss hc.2 hlist, DelResult.map]
  rfl

theorem alMemberDel_hit (hc : c.Exact) (h : ∃ m ∈ c.members, m.mid = mid) :
    ∃ c', alMemberDel c mid = .hit c' ∧ ¬ c'.Exact := by
  obtain ⟨m, hm, hmid⟩ := h
  obtain ⟨hplace, hu⟩ := AlMemberChain.mem_members.mp hm
  by_cases hinl : ∃ m ∈ c.inl.m, m.isUsed = true ∧ m.mid = mid
  · obtain ⟨inl, hs, hex⟩ := scan_del_hit hc.1 hinl
    exact ⟨{ c with inl }, by simp only [alMemberDel, hs], fun hx => hex hx.1⟩
  · have hmiss := scan_del_miss hc.1 fun m hmc hu he => hinl ⟨m, hmc, hu, he⟩
    rcases hplace with hin | ⟨mc, hmc, hmem⟩
    · exact absurd ⟨m, hin, hu, hmid⟩ hinl
    · obtain ⟨l', hdel, mc', hmc', hex⟩ := delList_hit hc.2 ⟨mc, hmc, m, hmem, hu, hmid⟩
      refine ⟨{ inl := c.inl, list := l' }, ?_, fun hx => hex (hx.2 mc' hmc')⟩
      simp only [alMemberDel, hmiss, hdel, DelResult.map]

end Delete

inductive MemberOp where
  | add (conf : AlMemberConf) (fresh : Option MemberCluster)
  | delete (mid : UInt32)

/-- A call that returns -1 is a step too; `none` is a scan that leaves its cluster. -/
def applyOp (fid gid : UInt32) (g : Groups) : MemberOp → Option Groups
  | .add conf fresh => some ((alMemberAdd g fid gid conf fresh).getD g)
  | .delete mid =>
    match alMemberDelete g fid gid mid with
    | .hit g' => some g'
    | .miss g' => some g'
    | .fault => none

structure ScansInside (c : AlMemberChain) : Prop where
  del : ∀ mid, alMemberDel c mid ≠ .fault
  rr : alAlgRr c ≠ none
  geoip : ∀ margs, alAlgGeoip c margs ≠ none

def CountersExact (fid gid : UInt32) (g : Groups) : Prop :=
  ∃ mn, g (alMakeKey fid gid) = some mn ∧ mn.chain.Exact ∧ ScansInside mn.chain

def Misses (fid gid : UInt32) (g : Groups) : MemberOp → Prop
  | .add _ _ => True
  | .delete mid => ∀ mn, g (alMakeKey fid gid) = some mn → ∀ m ∈ mn.chain.members, m.mid ≠ mid

theorem AlMemberChain.Exact.scansInside {c : AlMemberChain} (h : c.Exact) : ScansInside c where
  del mid := by
    by_cases hm : ∃ m ∈ c.members, m.mid = mid
    · obtain ⟨c', hdel, _⟩ := alMemberDel_hit h hm
      simp [hdel]
    · simp [alMemberDel_miss h fun m hmem he => hm ⟨m, hmem, he⟩]
  rr := by
    obtain ⟨best, c', hrr, _⟩ := alAlgRr_spec h
    simp [hrr]
  geoip margs := by
    obtain ⟨best, margs', hgeo, _⟩ := alAlgGeoip_spec h margs
    simp [hgeo]

theorem Ahead.load {d : UInt16} {c c' : AlMemberChain}
    {rows : List (AlMemberConf × Option MemberCluster)} (hc : Ahead d c)
    (h : alGroupLoadMember c rows = some c') : Ahead d c' := by
  induction rows generalizing c with
  | nil =>
    cases h
    exact hc
  | cons r rows ih =>
    simp only [alGroupLoadMember, Option.bind_eq_some_iff] at h
    obtain ⟨c₁, hins, hload⟩ := h
    exact ih (hc.insert hins) hload

theorem initChain_ahead (node : MemberCluster) : Ahead node.cnt (initChain node) := by
  have hnone : (initMc node).m.countP AlMember.isUsed = 0 := by
    simp [initMc, List.countP_eq_zero]
  exact ⟨by rw [initChain, hnone]; exact (UInt16.add_zero _).symm, by simp [initChain]⟩

section Group
variable {g g' : Groups} {fid gid : UInt32} {sched : UInt8} {node : MemberCluster}
  {rows : List (AlMemberConf × Option MemberCluster)}

theorem alGroupInsert_eq_some (h : alGroupInsert g fid gid sched (some node) rows = some g') :
    ∃ c, alGroupLoadMember (initChain node) rows = some c ∧
      g' (alMakeKey fid gid) = some ⟨sched, c⟩ := by
  unfold alGroupInsert at h
  split at h
  · cases h
  · obtain ⟨c, hc, rfl⟩ := Option.map_eq_some_iff.mp h
    exact ⟨c, hc, Groups.set_self _ _ _⟩

theorem applyOp_add {mn : AlMemberNode} (hg : g (alMakeKey fid gid) = some mn)
    (conf : AlMemberConf) (fresh : Option MemberCluster) :
    ∃ g', applyOp fid gid g (.add conf fresh) = some g' ∧
      g' (alMakeKey fid gid) =
        some { mn with chain := (alMemberInsert mn.chain conf fresh).getD mn.chain } := by
  refine ⟨_, rfl, ?_⟩
  simp only [alMemberAdd, hg, Option.bind_some]
  cases alMemberInsert mn.chain conf fresh with
  | none => exact hg
  | some c => exact Groups.set_self _ _ _

theorem applyOp_delete {mn : AlMemberNode} (hg : g (alMakeKey fid gid) = some mn) {mid : UInt32}
    {c : AlMemberChain} (h : alMemberDel mn.chain mid = .hit c ∨ alMemberDel mn.chain mid = .miss c) :
    ∃ g', applyOp fid gid g (.delete mid) = some g' ∧
      g' (alMakeKey fid gid) = some { mn with chain := c } := by
  refine ⟨g.set (alMakeKey fid gid) (some { mn with chain := c }), ?_, Groups.set_self _ _ _⟩
  rcases h with h | h <;> simp only [applyOp, alMemberDelete, hg, h, DelResult.map]

theorem CountersExact.step {op : MemberOp} (h : CountersExact fid gid g)
    (hop : Misses fid gid g op) :
    ∃ g', applyOp fid gid g op = some g' ∧ CountersExact fid gid g' := by
  obtain ⟨mn, hg, hex, _⟩ := h
  cases op with
  | add conf fresh =>
    obtain ⟨g', hop', hg'⟩ := applyOp_add hg conf fresh
    refine ⟨g', hop', _, hg', ?_⟩
    have hnext : ((alMemberInsert mn.chain conf fresh).getD mn.chain).Exact := by
      cases hins : alMemberInsert mn.chain conf fresh with
      | none => exact hex
      | some c => exact alMemberInsert_exact hex hins
    exact ⟨hnext, hnext.scansInside⟩
  | delete mid =>
    obtain ⟨g', hop', hg'⟩ := applyOp_delete hg (.inr (alMemberDel_miss hex (hop mn hg)))
    exact ⟨g', hop', _, hg', hex.trimmed, hex.trimmed.scansInside⟩

theorem CountersExact.misses {op : MemberOp} (h : CountersExact fid gid g)
    (hop : applyOp fid gid g op = some g') (h' : CountersExact fid gid g') :
    Misses fid gid g op := by
  cases op with
  | add conf fresh => trivial
  | delete mid =>
    intro mn hg m hm hmid
    obtain ⟨mn', hg', hex, _⟩ := h
    cases hg.symm.trans hg'
    obtain ⟨c, hdel, hnot⟩ := alMemberDel_hit hex ⟨m, hm, hmid⟩
    obtain ⟨g₁, hop₁, hg₁⟩ := applyOp_delete hg (.inl hdel)
    cases hop.symm.trans hop₁
    obtain ⟨mn'', hg'', hex', _⟩ := h'
    cases hg₁.symm.trans hg''
    exact hnot hex'

/-- The counters stay exact, and no scan leaves its cluster, exactly when the memory of the group
held a zero counter and no deletion names a member in use. -/
theorem counters_exact_iff {g₀ : Groups}
    (hins : alGroupInsert g₀ fid gid sched (some node) rows = some g) (ops : List MemberOp) :
    Along (applyOp fid gid) (CountersExact fid gid) g ops ↔
      node.cnt = 0 ∧ Guarded (applyOp fid gid) (Misses fid gid) g ops := by
  obtain ⟨c, hload, hg⟩ := alGroupInsert_eq_some hins
  have hahead := (initChain_ahead node).load hload
  constructor
  · intro h
    obtain ⟨mn, hg', hex, _⟩ := h.start
    cases hg.symm.trans hg'
    exact ⟨hahead.exact_iff.mp hex, h.guarded fun _ _ _ hs hop hs' => hs.misses hop hs'⟩
  · rintro ⟨hcnt, hguard⟩
    have hex := hahead.exact_iff.mpr hcnt
    exact Along.of_guarded (fun _ h => h) (fun _ _ hs hop => hs.step hop)
      ⟨_, hg, hex, hex.scansInside⟩ hguard

end Group

def oneGroup (weights : List UInt16) : Groups :=
  Groups.set (fun _ => none) (alMakeKey 1 1) (some ⟨0, poolOf weights⟩)

theorem insert_oneGroup :
    alGroupInsert (fun _ => none) 1 1 0 (some zeroCluster) (poolRows [1]) = some (oneGroup [1]) := by
  have hload : alGroupLoadMember (initChain zeroCluster) (poolRows [1]) = some (poolOf [1]) := by
    decide +kernel
  simp only [alGroupInsert, hload, Option.map_some, oneGroup]

theorem counters_exact_unknown_mid :
    Along (applyOp 1 1) (CountersExact 1 1) (oneGroup [1]) [.delete 9, .add (conf4 5 1 5) none] := by
  refine (counters_exact_iff insert_oneGroup _).mpr ⟨rfl, ?_, fun _ _ => ⟨trivial, fun _ _ => trivial⟩⟩
  intro mn hg
  cases hg
  decide +kernel

theorem deletion_keeps_counter :
    alGroupInsert (fun _ => none) 1 1 0 (some zeroCluster) (poolRows [1]) = some (oneGroup [1]) ∧
      ¬ Along (applyOp 1 1) (CountersExact 1 1) (oneGroup [1]) [.delete 0] := by
  refine ⟨insert_oneGroup, ?_⟩
  rintro ⟨_, g, hop, mn, hg, hex, _⟩
  have hone : oneGroup [1] (alMakeKey 1 1) = some ⟨0, poolOf [1]⟩ := rfl
  have hdel : ∃ c, alMemberDel (poolOf [1]) 0 = .hit c ∧ ¬ c.Exact :=
    alMemberDel_hit (by decide +kernel) (by decide +kernel)
  obtain ⟨c, hdel, hnot⟩ := hdel
  obtain ⟨g₁, hop₁, hg₁⟩ := applyOp_delete hone (.inl hdel)
  cases hop.symm.trans hop₁
  cases hg.symm.trans hg₁
  exact hnot hex

end Aware.Member
