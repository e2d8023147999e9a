import Aware.Member.Schedule

/-!
The table of groups: a group is loaded when a filter names it, its members come and go, and
packets ask it for a member.
-/
namespace Aware.Member

structure AlMemberNode where
  schd : UInt8
  chain : AlMemberChain

def Groups : Type := UInt64 → Option AlMemberNode

def alMakeKey (fid gid : UInt32) : UInt64 := (fid.toUInt64 <<< 32) ||| gid.toUInt64

def Groups.set (g : Groups) (key : UInt64) (v : Option AlMemberNode) : Groups :=
  fun k => if k = key then v else g k

/-- A lookup that returned. `slot` is the member `margs` was filled from; the return value is 0
when there is one and -1 otherwise. -/
structure Lookup where
  slot : Option ℕ
  margs : AlMargs
  groups : Groups

/-- `al_member_lookup`; `none` is a scheduler that left a cluster or a scheduler number outside
`g_alg_fun`. -/
def alMemberLookup (g : Groups) (fid gid : UInt32) (margs : AlMargs) : Option Lookup :=
  match g (alMakeKey fid gid) with
  | none => some ⟨none, margs, g⟩
  | some mn =>
    match algOfSchd mn.schd with
    | none => none
    | some alg =>
      match gAlgFun alg mn.chain margs with
      | none => none
      | some (none, margs', c) => some ⟨none, margs', g.set (alMakeKey fid gid) (some ⟨mn.schd, c⟩)⟩
      | some (some j, margs', c) =>
        match c.slots[j]? with
        | none => none
        | some m =>
          let addr :=
            if m.addr.family = afInet then margs'.addr.assign4 m.addr
            else margs'.addr.assign6 m.addr
          some ⟨some j, { margs' with mid := m.mid, port := m.port, addr, schd := mn.schd },
            g.set (alMakeKey fid gid) (some ⟨mn.schd, c⟩)⟩

def alGroupLoadMember (mc : AlMemberChain) :
    List (AlMemberConf × Option MemberCluster) → Option AlMemberChain
  | [] => some mc
  | (conf, fresh) :: rows => (alMemberInsert mc conf fresh).bind (alGroupLoadMember · rows)

/-- The chain of a new node: `INIT_HLIST_HEAD` and `INIT_MC`, with `cnt` as the memory had it. -/
def initChain (node : MemberCluster) : AlMemberChain := ⟨initMc node, []⟩

/-- `node` is the inline cluster in the memory `al_malloc` returns; `none` as a result is the
return value -1. -/
def alGroupInsert (g : Groups) (fid gid : UInt32) (sched : UInt8) (node : Option MemberCluster)
    (rows : List (AlMemberConf × Option MemberCluster)) : Option Groups :=
  match g (alMakeKey fid gid) with
  | some _ => none
  | none =>
    match node with
    | none => none
    | some node =>
      (alGroupLoadMember (initChain node) rows).map fun chain =>
        g.set (alMakeKey fid gid) (some ⟨sched, chain⟩)

def alGroupDelete (g : Groups) (fid gid : UInt32) : Option Groups :=
  (g (alMakeKey fid gid)).map fun _ => g.set (alMakeKey fid gid) none

def alMemberAdd (g : Groups) (fid gid : UInt32) (conf : AlMemberConf) (fresh : Option MemberCluster) :
    Option Groups :=
  (g (alMakeKey fid gid)).bind fun mn =>
    (alMemberInsert mn.chain conf fresh).map fun chain =>
      g.set (alMakeKey fid gid) (some { mn with chain })

def alMemberDelete (g : Groups) (fid gid mid : UInt32) : DelResult Groups :=
  match g (alMakeKey fid gid) with
  | none => .miss g
  | some mn =>
    (alMemberDel mn.chain mid).map fun chain => g.set (alMakeKey fid gid) (some { mn with chain })

theorem alGroupLoadMember_isSome_iff (c : AlMemberChain) (fresh : Option MemberCluster)
    (confs : List AlMemberConf) :
    (alGroupLoadMember c (confs.map fun f => (f, fresh))).isSome = true ↔
      c.HasRoom fresh confs.length := by
  induction confs generalizing c with
  | nil => simp [alGroupLoadMember, AlMemberChain.HasRoom]
  | cons conf confs ih =>
    simp only [List.map_cons, alGroupLoadMember, List.length_cons]
    cases hins : alMemberInsert c conf fresh with
    | none =>
      have hroom := alMemberInsert_isSome_iff c conf fresh
      rw [hins] at hroom
      refine iff_of_false (by simp) fun h => ?_
      exact absurd (hroom.mpr (h.imp_left (le_trans (by simp)))) (by simp)
    | some c' =>
      rw [Option.bind_some, ih, alMemberInsert_hasRoom_iff hins]

theorem initChain_hasRoom_iff (node : MemberCluster) (fresh : Option MemberCluster) (n : ℕ) :
    (initChain node).HasRoom fresh n ↔ n ≤ memberClusterSize ∨ fresh.isSome = true := by
  have hfree : (initChain node).slots.countP (fun m => !m.isUsed) = memberClusterSize := by
    rw [List.countP_eq_length.mpr]
    · rw [AlMemberChain.length_slots]
      rfl
    · simp [initChain, AlMemberChain.slots, initMc]
  rw [AlMemberChain.HasRoom, hfree]

@[simp] theorem Groups.set_self (g : Groups) (key : UInt64) (v : Option AlMemberNode) :
    g.set key v key = v := if_pos rfl

theorem Groups.set_of_ne (g : Groups) {key k : UInt64} (h : k ≠ key) (v : Option AlMemberNode) :
    g.set key v k = g k := if_neg h

theorem toNat_alMakeKey (fid gid : UInt32) :
    (alMakeKey fid gid).toNat = fid.toNat * 2 ^ 32 + gid.toNat := by
  have hf := fid.toNat_lt
  have hg := gid.toNat_lt
  have hor : fid.toNat <<< 32 ||| gid.toNat = fid.toNat * 2 ^ 32 + gid.toNat := by
    rw [← Nat.shiftLeft_add_eq_or_of_lt hg, Nat.shiftLeft_eq]
  simp only [alMakeKey, UInt64.toNat_or, UInt64.toNat_shiftLeft, UInt32.toNat_toUInt64]
  rw [Nat.mod_eq_of_lt (b := 2 ^ 64)]
  · exact hor
  · simp [Nat.shiftLeft_eq]
    omega

theorem alMakeKey_inj {fid gid fid' gid' : UInt32} :
    alMakeKey fid gid = alMakeKey fid' gid' ↔ fid = fid' ∧ gid = gid' := by
  have hg := gid.toNat_lt
  have hg' := gid'.toNat_lt
  rw [← UInt64.toNat_inj, toNat_alMakeKey, toNat_alMakeKey, ← UInt32.toNat_inj, ← UInt32.toNat_inj]
  omega

def conf4 (mid : UInt32) (weight : UInt16) (naddr : BitVec 32) : AlMemberConf :=
  ⟨weight, 80, mid, ⟨8, afInet, naddr, 0⟩⟩

def poolRows (weights : List UInt16) : List (AlMemberConf × Option MemberCluster) :=
  weights.mapIdx fun i w => (conf4 (UInt32.ofNat i) w (BitVec.ofNat 32 i), none)

def poolOf (weights : List UInt16) : AlMemberChain :=
  (alGroupLoadMember (initChain zeroCluster) (poolRows weights)).getD (initChain zeroCluster)

end Aware.Member
