import Aware.Lib.Cluster
import Aware.Address

/-!
The members of a group: a cluster of slots inside the group's node and overflow clusters
on a list beside it, filled and emptied slot by slot.
-/
namespace Aware.Member

def memberClusterSize : ℕ := 8

structure AlMember where
  isUsed : Bool
  isUp : Bool
  port : UInt16
  weight : UInt16
  currentWeight : UInt16
  effectiveWeight : UInt16
  mid : UInt32
  viewid : UInt32
  dnsttl : UInt32
  intype : UInt8
  addr : AlAddr
  deriving DecidableEq, Repr

def AlMember.live (m : AlMember) : Bool := m.isUsed && m.isUp

structure AlMemberConf where
  weight : UInt16
  port : UInt16
  mid : UInt32
  addr : AlAddr
  deriving DecidableEq, Repr

def AlMember.zero : AlMember := ⟨false, false, 0, 0, 0, 0, 0, 0, 0, 0, ⟨0, 0, 0, 0⟩⟩

abbrev MemberCluster := Cluster AlMember memberClusterSize

def zeroCluster : MemberCluster := ⟨0, List.replicate memberClusterSize .zero, rfl⟩

/-- `al_member_chain_t`: the inline cluster and the overflow list, newest cluster first. -/
structure AlMemberChain where
  inl : MemberCluster
  list : List MemberCluster
  deriving DecidableEq

/-- The family that is tested is the one already in the slot. -/
def alSetMember (m : AlMember) (conf : AlMemberConf) : AlMember :=
  { m with
    port := htons conf.port
    mid := conf.mid
    weight := conf.weight
    currentWeight := 0
    effectiveWeight := conf.weight
    isUp := true
    addr := if m.addr.family = afInet then m.addr.assign4 conf.addr else m.addr.assign6 conf.addr }

def fill (conf : AlMemberConf) (m : AlMember) : AlMember :=
  { alSetMember m conf with isUsed := true }

/-- `INIT_MC`: memory from `al_malloc` keeps whatever it held, but for `is_used`. -/
def initMc (c : MemberCluster) : MemberCluster :=
  ⟨c.cnt, c.m.map fun m => { m with isUsed := false }, by rw [List.length_map, c.size]⟩

def insertList (conf : AlMemberConf) : List MemberCluster → Option (List MemberCluster)
  | [] => none
  | mc :: rest =>
    match mc.firstFree AlMember.isUsed with
    | some i => some (mc.put i (fill conf) :: rest)
    | none => (insertList conf rest).map (mc :: ·)

/-- `fresh` is what `al_malloc` returns, should it be called. `none` as a result is the return
value -1. -/
def alMemberInsert (c : AlMemberChain) (conf : AlMemberConf) (fresh : Option MemberCluster) :
    Option AlMemberChain :=
  match c.inl.firstFree AlMember.isUsed with
  | some i => some { c with inl := c.inl.put i (fill conf) }
  | none =>
    match insertList conf c.list with
    | some l => some { c with list := l }
    | none =>
      match fresh with
      | none => none
      | some mc =>
        let mc := (initMc mc).modify 0 (fill conf)
        some { c with list := { mc with cnt := 1 } :: c.list }

def delBody (mid : UInt32) (_ : ℕ) (_ : Bool) (m : AlMember) : Cluster.Visit AlMember Bool Unit :=
  if m.mid = mid then .stop () { m with isUsed := false } else .next true m

/-- How `al_member_del` ends: with its return value, or by leaving a cluster. -/
inductive DelResult (β : Type) where
  | hit (b : β)
  | miss (b : β)
  | fault
  deriving DecidableEq

def DelResult.map {β γ : Type} (f : β → γ) : DelResult β → DelResult γ
  | .hit b => .hit (f b)
  | .miss b => .miss (f b)
  | .fault => .fault

def delList (mid : UInt32) : List MemberCluster → DelResult (List MemberCluster)
  | [] => .miss []
  | mc :: rest =>
    match mc.scan AlMember.isUsed (delBody mid) 0 false with
    | .stopped _ mc' => .hit (mc' :: rest)
    | .done s mc' => (delList mid rest).map (if s then (mc' :: ·) else id)
    | .overrun => .fault

def alMemberDel (c : AlMemberChain) (mid : UInt32) : DelResult AlMemberChain :=
  match c.inl.scan AlMember.isUsed (delBody mid) 0 false with
  | .stopped _ inl => .hit { c with inl }
  | .done _ inl => (delList mid c.list).map fun list => { inl, list }
  | .overrun => .fault

def AlMemberChain.Exact (c : AlMemberChain) : Prop :=
  c.inl.Exact AlMember.isUsed ∧ ∀ mc ∈ c.list, mc.Exact AlMember.isUsed

instance (c : AlMemberChain) : Decidable c.Exact := inferInstanceAs (Decidable (_ ∧ _))

def AlMemberChain.Related (P : AlMember → AlMember → Prop) (c c' : AlMemberChain) : Prop :=
  c.inl.Related P c'.inl ∧ List.Forall₂ (Cluster.Related P) c.list c'.list

/-- A member is named by its position in scan order: the eight inline slots first, then eight for
each overflow cluster. -/
def AlMemberChain.slots (c : AlMemberChain) : List AlMember :=
  c.inl.m ++ c.list.flatMap Cluster.m

section Related
variable {P : AlMember → AlMember → Prop} {c c' : AlMemberChain}

theorem AlMemberChain.Related.slots (h : c.Related P c') : List.Forall₂ P c.slots c'.slots := by
  refine List.rel_append h.1.2 ?_
  exact List.rel_flatMap h.2 fun _ _ hr => hr.2

theorem exact_of_related {l l' : List MemberCluster} (hP : ∀ a b, P a b → b.isUsed = a.isUsed)
    (h : List.Forall₂ (Cluster.Related P) l l') (hl : ∀ mc ∈ l, mc.Exact AlMember.isUsed) :
    ∀ mc ∈ l', mc.Exact AlMember.isUsed := by
  induction h with
  | nil => exact hl
  | cons hr _ ih =>
    simp only [List.mem_cons, forall_eq_or_imp] at hl ⊢
    exact ⟨hr.exact hP hl.1, ih hl.2⟩

theorem AlMemberChain.Related.exact (hP : ∀ a b, P a b → b.isUsed = a.isUsed)
    (h : c.Related P c') (hc : c.Exact) : c'.Exact :=
  ⟨h.1.exact hP hc.1, exact_of_related hP h.2 hc.2⟩

end Related

def AlMemberChain.members (c : AlMemberChain) : List AlMember := c.slots.filter AlMember.isUsed

def AlMemberChain.insertTarget (c : AlMemberChain) (fresh : Option MemberCluster) :
    Option AlMember :=
  (c.slots.find? fun m => !m.isUsed).or (fresh.bind fun mc => mc.m.head?)

@[simp] theorem fill_isUsed (conf : AlMemberConf) (m : AlMember) : (fill conf m).isUsed = true := rfl

section Insert
variable {c c' : AlMemberChain} {conf : AlMemberConf} {fresh : Option MemberCluster}

theorem insertList_some {l l' : List MemberCluster} (h : insertList conf l = some l') :
    ∃ m, (l.flatMap Cluster.m).find? (fun m => !m.isUsed) = some m ∧
      ((l'.flatMap Cluster.m).filter AlMember.isUsed).Perm
        (fill conf m :: (l.flatMap Cluster.m).filter AlMember.isUsed) := by
  induction l generalizing l' with
  | nil => cases h
  | cons mc l ih =>
    simp only [insertList] at h
    split at h
    · rename_i i hi
      cases h
      obtain ⟨m, hm, hperm⟩ := Cluster.filter_modify_free (fill_isUsed conf) hi
      refine ⟨m, by simp [List.find?_append, hm], ?_⟩
      simpa [Cluster.put] using hperm.append_right _
    · rename_i hfull
      simp only [Option.map_eq_some_iff] at h
      obtain ⟨l₁, hl₁, rfl⟩ := h
      obtain ⟨m, hm, hperm⟩ := ih hl₁
      have hnone := Cluster.find?_free_eq_none hfull
      refine ⟨m, by simp only [List.flatMap_cons, List.find?_append, hnone, hm, Option.none_or], ?_⟩
      simp only [List.flatMap_cons, List.filter_append]
      exact (hperm.append_left _).trans List.perm_middle

theorem insertList_none {l : List MemberCluster} (h : insertList conf l = none) :
    (l.flatMap Cluster.m).find? (fun m => !m.isUsed) = none := by
  induction l with
  | nil => rfl
  | cons mc l ih =>
    simp only [insertList] at h
    split at h
    · cases h
    · rename_i hfull
      have hnone := Cluster.find?_free_eq_none hfull
      simp only [Option.map_eq_none_iff] at h
      simp only [List.flatMap_cons, List.find?_append, hnone, ih h, Option.none_or]

theorem head_initMc (mc : MemberCluster) (conf : AlMemberConf) :
    ∃ m, mc.m.head? = some m ∧
      ((initMc mc).modify 0 (fill conf)).m.filter AlMember.isUsed = [fill conf m] := by
  obtain ⟨cnt, l, hl⟩ := mc
  cases l with
  | nil => cases hl
  | cons m l =>
    refine ⟨m, rfl, ?_⟩
    simp [initMc, Cluster.modify, fill, alSetMember]

theorem alMemberInsert_members (h : alMemberInsert c conf fresh = some c') :
    ∃ m, c.insertTarget fresh = some m ∧ c'.members.Perm (fill conf m :: c.members) := by
  unfold alMemberInsert at h
  unfold AlMemberChain.insertTarget AlMemberChain.members AlMemberChain.slots
  split at h
  · rename_i i hi
    cases h
    obtain ⟨m, hm, hperm⟩ := Cluster.filter_modify_free (fill_isUsed conf) hi
    refine ⟨m, by simp [List.find?_append, hm], ?_⟩
    simpa [Cluster.put] using hperm.append_right _
  · rename_i hfull
    have hinl := Cluster.find?_free_eq_none hfull
    split at h
    · rename_i l hl
      cases h
      obtain ⟨m, hm, hperm⟩ := insertList_some hl
      refine ⟨m, by simp [List.find?_append, hinl, hm], ?_⟩
      simp only [List.filter_append]
      exact (hperm.append_left _).trans List.perm_middle
    · rename_i hl
      split at h
      · cases h
      · rename_i mc
        cases h
        obtain ⟨m, hm, hfill⟩ := head_initMc mc conf
        refine ⟨m, ?_, ?_⟩
        · simp only [List.find?_append, hinl, insertList_none hl, Option.none_or, hm,
            Option.bind_some]
        · simp only [List.flatMap_cons, List.filter_append, hfill]
          exact List.perm_middle

theorem insertList_exact {l l' : List MemberCluster} (hl : ∀ mc ∈ l, mc.Exact AlMember.isUsed)
    (h : insertList conf l = some l') : ∀ mc ∈ l', mc.Exact AlMember.isUsed := by
  induction l generalizing l' with
  | nil => cases h
  | cons mc l ih =>
    rw [List.forall_mem_cons] at hl
    simp only [insertList] at h
    split at h
    · rename_i i hi
      cases h
      exact List.forall_mem_cons.mpr ⟨hl.1.put (fill_isUsed conf) (by decide) hi, hl.2⟩
    · simp only [Option.map_eq_some_iff] at h
      obtain ⟨l₁, hl₁, rfl⟩ := h
      exact List.forall_mem_cons.mpr ⟨hl.1, ih hl.2 hl₁⟩

def Ahead (d : UInt16) (c : AlMemberChain) : Prop :=
  c.inl.cnt = d + UInt16.ofNat (c.inl.m.countP AlMember.isUsed) ∧
    ∀ mc ∈ c.list, mc.Exact AlMember.isUsed

theorem Ahead.exact_iff {d : UInt16} (h : Ahead d c) : c.Exact ↔ d = 0 := by
  have hle : c.inl.m.countP AlMember.isUsed ≤ c.inl.m.length := List.countP_le_length
  have hsize : c.inl.m.length = 8 := c.inl.size
  have hd := d.toNat_lt
  rw [AlMemberChain.Exact, and_iff_left h.2, Cluster.Exact, h.1, UInt16.toNat_add, UInt16.toNat_ofNat',
    ← UInt16.toNat_inj]
  simp only [UInt16.toNat_zero]
  omega

theorem AlMemberChain.Exact.ahead (h : c.Exact) : Ahead 0 c := by
  refine ⟨?_, h.2⟩
  rw [UInt16.zero_add, ← h.1, UInt16.ofNat_toNat]

theorem Ahead.insert {d : UInt16} (hc : Ahead d c) (h : alMemberInsert c conf fresh = some c') :
    Ahead d c' := by
  unfold alMemberInsert at h
  split at h
  · rename_i i hi
    cases h
    refine ⟨?_, hc.2⟩
    have hcount := Cluster.countP_modify_free (fill_isUsed conf) hi
    simp only [Cluster.put, hcount, hc.1, UInt16.ofNat_add, UInt16.add_assoc]
    rfl
  · split at h
    · rename_i l hl
      cases h
      exact ⟨hc.1, insertList_exact hc.2 hl⟩
    · split at h
      · cases h
      · rename_i mc
        cases h
        refine ⟨hc.1, List.forall_mem_cons.mpr ⟨?_, hc.2⟩⟩
        obtain ⟨m, _, hfill⟩ := head_initMc mc conf
        unfold Cluster.Exact
        simp only [List.countP_eq_length_filter, hfill]
        rfl

theorem alMemberInsert_exact (hc : c.Exact) (h : alMemberInsert c conf fresh = some c') :
    c'.Exact :=
  (hc.ahead.insert h).exact_iff.mpr rfl

end Insert

section Room
variable {c c' : AlMemberChain} {conf : AlMemberConf} {fresh : Option MemberCluster}

def AlMemberChain.HasRoom (c : AlMemberChain) (fresh : Option MemberCluster) (n : ℕ) : Prop :=
  n ≤ c.slots.countP (fun m => !m.isUsed) ∨ fresh.isSome = true

theorem AlMemberChain.length_slots (c : AlMemberChain) :
    c.slots.length = memberClusterSize * (c.list.length + 1) := by
  have hlist : ∀ l : List MemberCluster,
      (l.flatMap Cluster.m).length = memberClusterSize * l.length := by
    intro l
    induction l with
    | nil => rfl
    | cons mc l ih =>
      rw [List.flatMap_cons, List.length_append, ih, mc.size, List.length_cons, Nat.mul_succ,
        Nat.add_comm]
  rw [AlMemberChain.slots, List.length_append, hlist, c.inl.size, Nat.mul_succ, Nat.add_comm]

theorem insertList_length {l l' : List MemberCluster} (h : insertList conf l = some l') :
    l'.length = l.length := by
  induction l generalizing l' with
  | nil => cases h
  | cons mc l ih =>
    simp only [insertList] at h
    split at h
    · cases h
      rfl
    · obtain ⟨l₁, hl₁, rfl⟩ := Option.map_eq_some_iff.mp h
      rw [List.length_cons, List.length_cons, ih hl₁]

theorem find?_free_isSome_iff {l : List AlMember} :
    (l.find? fun m => !m.isUsed).isSome = true ↔ 1 ≤ l.countP fun m => !m.isUsed := by
  rw [List.find?_isSome, Nat.one_le_iff_ne_zero, ← Nat.pos_iff_ne_zero, List.countP_pos_iff]

theorem alMemberInsert_isSome_iff (c : AlMemberChain) (conf : AlMemberConf)
    (fresh : Option MemberCluster) :
    (alMemberInsert c conf fresh).isSome = true ↔ c.HasRoom fresh 1 := by
  rw [AlMemberChain.HasRoom, ← find?_free_isSome_iff]
  constructor
  · intro h
    obtain ⟨c', hc'⟩ := Option.isSome_iff_exists.mp h
    obtain ⟨m, hm, -⟩ := alMemberInsert_members hc'
    rw [AlMemberChain.insertTarget] at hm
    rcases Option.or_eq_some_iff.mp hm with hslot | ⟨-, hnew⟩
    · exact .inl (by rw [hslot]; rfl)
    · obtain ⟨mc, hmc, -⟩ := Option.bind_eq_some_iff.mp hnew
      exact .inr (by rw [hmc]; rfl)
  · intro h
    unfold alMemberInsert
    split
    · rfl
    · next hfull =>
        split
        · rfl
        · next hl =>
            have hnone : c.slots.find? (fun m => !m.isUsed) = none := by
              rw [AlMemberChain.slots, List.find?_append, Cluster.find?_free_eq_none hfull,
                insertList_none hl]
              rfl
            rw [hnone] at h
            obtain ⟨mc, rfl⟩ := Option.isSome_iff_exists.mp (h.resolve_left (by simp))
            rfl

theorem alMemberInsert_hasRoom_iff (h : alMemberInsert c conf fresh = some c') (n : ℕ) :
    c'.HasRoom fresh n ↔ c.HasRoom fresh (n + 1) := by
  cases fresh with
  | some mc => simp [AlMemberChain.HasRoom]
  | none =>
    have hlength : c'.slots.length = c.slots.length := by
      rw [c'.length_slots, c.length_slots]
      simp only [alMemberInsert] at h
      split at h
      · cases h
        rfl
      · split at h
        · next hl =>
            cases h
            rw [insertList_length hl]
        · cases h
    obtain ⟨m, -, hperm⟩ := alMemberInsert_members h
    have hsize := hperm.length_eq
    have hsplit : ∀ c : AlMemberChain,
        c.slots.length = c.members.length + c.slots.countP fun m => !m.isUsed := by
      intro c
      rw [List.length_eq_countP_add_countP AlMember.isUsed, ← List.countP_eq_length_filter.symm]
      simp [AlMemberChain.members, List.countP_eq_length_filter]
    rw [List.length_cons] at hsize
    have h₁ := hsplit c
    have h₂ := hsplit c'
    simp only [AlMemberChain.HasRoom, Option.isSome_none, Bool.false_eq_true, or_false]
    omega
end Room

end Aware.Member
