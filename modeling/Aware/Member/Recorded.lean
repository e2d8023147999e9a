import Aware.Member.History

/-!
What a lookup returns, compared with the configuration that each live member was last added
with.
-/
namespace Aware.Member

open Runs

structure Recorded where
  groups : Groups
  live : UInt32 → Option AlMemberConf

def record (live : UInt32 → Option AlMemberConf) (conf : AlMemberConf) :
    UInt32 → Option AlMemberConf :=
  fun mid => if mid = conf.mid then some conf else live mid

def unrecord (live : UInt32 → Option AlMemberConf) (mid : UInt32) : UInt32 → Option AlMemberConf :=
  fun k => if k = mid then none else live k

inductive RecordedOp where
  | add (conf : AlMemberConf) (fresh : Option MemberCluster)
  | delete (mid : UInt32)
  | lookup (margs : AlMargs)

def applyRecorded (fid gid : UInt32) (s : Recorded) : RecordedOp → Option Recorded
  | .add conf fresh =>
    match alMemberAdd s.groups fid gid conf fresh with
    | some g => some ⟨g, record s.live conf⟩
    | none => some s
  | .delete mid =>
    match alMemberDelete s.groups fid gid mid with
    | .hit g => some ⟨g, unrecord s.live mid⟩
    | .miss g => some { s with groups := g }
    | .fault => none
  | .lookup margs =>
    (alMemberLookup s.groups fid gid margs).map fun r => { s with groups := r.groups }

def Carries (port : UInt16) (addr : AlAddr) (conf : AlMemberConf) : Prop :=
  port = htons conf.port ∧ addr.SameAddress conf.addr

def ReturnsRecorded (fid gid : UInt32) (s : Recorded) : Prop :=
  ∀ margs, ∃ r, alMemberLookup s.groups fid gid margs = some r ∧
    (r.slot ≠ none →
      ∃ conf, s.live r.margs.mid = some conf ∧ Carries r.margs.port r.margs.addr conf)

/-- The slot takes the address of `conf` in full: the family it still holds selects the view the
address is copied through. -/
def Takes (conf : AlMemberConf) (m : AlMember) : Prop :=
  conf.addr.family = afInet ∨ m.addr.family ≠ afInet ∨ m.addr.naddr6 = conf.addr.naddr6

def CleanInsert (c : AlMemberChain) (r : AlMemberConf × Option MemberCluster) : Prop :=
  (∀ m ∈ c.members, m.mid ≠ r.1.mid) ∧ ∀ m, c.insertTarget r.2 = some m → Takes r.1 m

def CleanOp (fid gid : UInt32) (s : Recorded) : RecordedOp → Prop
  | .add conf fresh => ∀ mn, s.groups (alMakeKey fid gid) = some mn → CleanInsert mn.chain (conf, fresh)
  | .delete mid => ∀ mn, s.groups (alMakeKey fid gid) = some mn → ∀ m ∈ mn.chain.members, m.mid ≠ mid
  | .lookup _ => True

theorem fill_carries {conf : AlMemberConf} {m : AlMember} (h : Takes conf m) :
    Carries (fill conf m).port (fill conf m).addr conf := by
  refine ⟨rfl, ?_⟩
  simp only [fill, alSetMember]
  split
  · rename_i hm
    refine ⟨rfl, ?_⟩
    split
    · rfl
    · rename_i hfam
      rcases h with h | h | h
      · exact absurd h hfam
      · exact absurd hm h
      · exact h
  · refine ⟨rfl, ?_⟩
    split <;> rfl

structure Faithful (c : AlMemberChain) (live : UInt32 → Option AlMemberConf) : Prop where
  exact : c.Exact
  carries : ∀ m ∈ c.members, ∃ conf, live m.mid = some conf ∧ Carries m.port m.addr conf

section Faithful
variable {c c' : AlMemberChain} {live : UInt32 → Option AlMemberConf}

theorem Faithful.insert (h : Faithful c live) {conf : AlMemberConf} {fresh : Option MemberCluster}
    (hclean : CleanInsert c (conf, fresh)) (hins : alMemberInsert c conf fresh = some c') :
    Faithful c' (record live conf) := by
  obtain ⟨m, htarget, hperm⟩ := alMemberInsert_members hins
  refine ⟨alMemberInsert_exact h.exact hins, ?_⟩
  intro x hx
  rcases List.mem_cons.mp (hperm.mem_iff.mp hx) with rfl | hx
  · exact ⟨conf, if_pos rfl, fill_carries (hclean.2 m htarget)⟩
  · obtain ⟨conf', hlive, hcarries⟩ := h.carries x hx
    exact ⟨conf', (if_neg (hclean.1 x hx)).trans hlive, hcarries⟩

theorem Faithful.trimmed (h : Faithful c live) : Faithful c.trimmed live :=
  ⟨h.exact.trimmed, by rw [c.trimmed_members]; exact h.carries⟩

theorem Faithful.of_core (h : Faithful c live) (hex : c'.Exact)
    (hcore : c'.slots.map AlMember.core = c.slots.map AlMember.core) : Faithful c' live := by
  refine ⟨hex, ?_⟩
  intro x hx
  have hmem : x.core ∈ c.members.map AlMember.core := by
    rw [← members_core_eq hcore]
    exact List.mem_map_of_mem hx
  obtain ⟨m, hm, heq⟩ := List.mem_map.mp hmem
  obtain ⟨conf, hlive, hcarries⟩ := h.carries m hm
  have hmid : m.core.mid = x.core.mid := congrArg AlMember.mid heq
  have hport : m.core.port = x.core.port := congrArg AlMember.port heq
  have haddr : m.core.addr = x.core.addr := congrArg AlMember.addr heq
  exact ⟨conf, hmid ▸ hlive, hport ▸ haddr ▸ hcarries⟩

end Faithful

section Run
variable {fid gid : UInt32} {sched : UInt8} {g : Groups} {c : AlMemberChain}

theorem alMemberLookup_spec (hg : g (alMakeKey fid gid) = some ⟨sched, c⟩)
    (hs : algOfSchd sched ≠ none) (hex : c.Exact) (margs : AlMargs) :
    ∃ r c', alMemberLookup g fid gid margs = some r ∧
      r.groups (alMakeKey fid gid) = some ⟨sched, c'⟩ ∧ c'.Exact ∧
      c'.slots.map AlMember.core = c.slots.map AlMember.core ∧
      (r.slot ≠ none → ∃ m ∈ c'.members, r.margs.mid = m.mid ∧ r.margs.port = m.port ∧
        r.margs.addr.SameAddress m.addr) := by
  obtain ⟨alg, halg⟩ := Option.ne_none_iff_exists'.mp hs
  obtain ⟨j, margs', c', hfun, hex', hcore, hused⟩ := gAlgFun_spec hex alg margs
  cases j with
  | none =>
    refine ⟨_, c', by simp only [alMemberLookup, hg, halg, hfun]; rfl, Groups.set_self _ _ _, hex',
      hcore, fun h => absurd rfl h⟩
  | some p =>
    obtain ⟨m, hm, hu⟩ := hused p rfl
    refine ⟨_, c', by simp only [alMemberLookup, hg, halg, hfun, hm]; rfl, Groups.set_self _ _ _,
      hex', hcore, fun _ => ⟨m, ?_, rfl, rfl, ?_⟩⟩
    · exact List.mem_filter.mpr ⟨List.mem_of_getElem? hm, hu⟩
    · by_cases hfam : m.addr.family = afInet
      · simp [AlAddr.SameAddress, AlAddr.assign4, hfam]
      · simp [AlAddr.SameAddress, AlAddr.assign6, hfam]

def Kept (fid gid : UInt32) (sched : UInt8) (s : Recorded) : Prop :=
  ∃ c, s.groups (alMakeKey fid gid) = some ⟨sched, c⟩ ∧ Faithful c s.live

theorem Kept.returnsRecorded (hs : algOfSchd sched ≠ none) {s : Recorded} (h : Kept fid gid sched s) :
    ReturnsRecorded fid gid s := by
  intro margs
  obtain ⟨c, hg, hfaith⟩ := h
  obtain ⟨r, c', hr, _, hex, hcore, hslot⟩ := alMemberLookup_spec hg hs hfaith.exact margs
  refine ⟨r, hr, ?_⟩
  intro hne
  obtain ⟨m, hm, hmid, hport, haddr⟩ := hslot hne
  obtain ⟨conf, hlive, hcarries⟩ := (hfaith.of_core hex hcore).carries m hm
  exact ⟨conf, hmid ▸ hlive, hport.trans hcarries.1, haddr.trans hcarries.2⟩

theorem Kept.step (hs : algOfSchd sched ≠ none) {s : Recorded} {op : RecordedOp}
    (h : Kept fid gid sched s) (hop : CleanOp fid gid s op) :
    ∃ s', applyRecorded fid gid s op = some s' ∧ Kept fid gid sched s' := by
  obtain ⟨c, hg, hfaith⟩ := h
  cases op with
  | add conf fresh =>
    cases hins : alMemberInsert c conf fresh with
    | none =>
      refine ⟨s, ?_, c, hg, hfaith⟩
      simp only [applyRecorded, alMemberAdd, hg, Option.bind_some, hins, Option.map_none]
    | some c' =>
      refine ⟨⟨s.groups.set (alMakeKey fid gid) (some ⟨sched, c'⟩), record s.live conf⟩, ?_, c',
        Groups.set_self _ _ _, hfaith.insert (hop _ hg) hins⟩
      simp only [applyRecorded, alMemberAdd, hg, Option.bind_some, hins, Option.map_some]
  | delete mid =>
    refine ⟨⟨s.groups.set (alMakeKey fid gid) (some ⟨sched, c.trimmed⟩), s.live⟩, ?_, c.trimmed,
      Groups.set_self _ _ _, hfaith.trimmed⟩
    simp only [applyRecorded, alMemberDelete, hg, alMemberDel_miss hfaith.exact (hop _ hg),
      DelResult.map]
  | lookup margs =>
    obtain ⟨r, c', hr, hg', hex, hcore, _⟩ := alMemberLookup_spec hg hs hfaith.exact margs
    refine ⟨{ s with groups := r.groups }, ?_, c', hg', hfaith.of_core hex hcore⟩
    simp only [applyRecorded, hr, Option.map_some]

def recordRows (live : UInt32 → Option AlMemberConf) :
    List (AlMemberConf × Option MemberCluster) → UInt32 → Option AlMemberConf
  | [] => live
  | r :: rows => recordRows (record live r.1) rows

theorem Faithful.load {c' : AlMemberChain} {live : UInt32 → Option AlMemberConf}
    {rows : List (AlMemberConf × Option MemberCluster)} (h : Faithful c live)
    (hclean : Guarded (fun c r => alMemberInsert c r.1 r.2) CleanInsert c rows)
    (hload : alGroupLoadMember c rows = some c') : Faithful c' (recordRows live rows) := by
  induction rows generalizing c live with
  | nil =>
    cases hload
    exact h
  | cons r rows ih =>
    simp only [alGroupLoadMember, Option.bind_eq_some_iff] at hload
    obtain ⟨c₁, hins, hload⟩ := hload
    exact ih (h.insert hclean.1 hins) (hclean.2 c₁ hins) hload

theorem initChain_faithful {node : MemberCluster} (hcnt : node.cnt = 0) :
    Faithful (initChain node) fun _ => none := by
  refine ⟨(initChain_ahead node).exact_iff.mpr hcnt, ?_⟩
  intro m hm
  obtain ⟨hplace, hu⟩ := AlMemberChain.mem_members.mp hm
  simp only [initChain, initMc, List.mem_map, List.not_mem_nil, false_and, exists_false, or_false]
    at hplace
  obtain ⟨x, _, rfl⟩ := hplace
  cases hu

/-- In a history whose steps are all clean, whatever a lookup returns is live and carries the
address and the port it was last added with. -/
theorem lookup_returns_recorded {g₀ : Groups} {node : MemberCluster}
    {rows : List (AlMemberConf × Option MemberCluster)}
    (hins : alGroupInsert g₀ fid gid sched (some node) rows = some g)
    (hs : algOfSchd sched ≠ none) (hcnt : node.cnt = 0)
    (hrows : Guarded (fun c r => alMemberInsert c r.1 r.2) CleanInsert (initChain node) rows)
    {ops : List RecordedOp}
    (hops : Guarded (applyRecorded fid gid) (CleanOp fid gid) ⟨g, recordRows (fun _ => none) rows⟩ ops) :
    Along (applyRecorded fid gid) (ReturnsRecorded fid gid)
      ⟨g, recordRows (fun _ => none) rows⟩ ops := by
  obtain ⟨c, hload, hg⟩ := alGroupInsert_eq_some hins
  have hkept : Kept fid gid sched ⟨g, recordRows (fun _ => none) rows⟩ :=
    ⟨c, hg, (initChain_faithful hcnt).load hrows hload⟩
  exact Along.of_guarded (fun _ h => h.returnsRecorded hs) (fun _ _ h hop => h.step hs hop) hkept hops

end Run

def conf6 (mid : UInt32) (naddr : BitVec 128) : AlMemberConf := ⟨1, 80, mid, ⟨32, afInet6, 0, naddr⟩⟩

theorem lookup_returns_recorded_mixed :
    Along (applyRecorded 1 1) (ReturnsRecorded 1 1)
      ⟨oneGroup [1], recordRows (fun _ => none) (poolRows [1])⟩ [.add (conf6 7 1) none] := by
  refine lookup_returns_recorded insert_oneGroup (by decide) rfl ?_ ?_
  · refine ⟨⟨by decide +kernel, fun _ _ => .inl rfl⟩, fun _ _ => trivial⟩
  · refine ⟨?_, fun _ _ => trivial⟩
    intro mn hg
    cases hg
    refine ⟨by decide +kernel, ?_⟩
    intro m hm
    have htarget : (poolOf [1]).insertTarget none = some .zero := by decide +kernel
    cases hm.symm.trans htarget
    exact .inr (.inl (by decide))

def staleCluster : MemberCluster :=
  ⟨0, { AlMember.zero with addr := ⟨0, afInet, 0, 0⟩ } :: List.replicate 7 .zero, rfl⟩

def staleGroup : Groups :=
  Groups.set (fun _ => none) (alMakeKey 1 1) (some ⟨0, initChain staleCluster⟩)

theorem stale_family_loses_address :
    alGroupInsert (fun _ => none) 1 1 0 (some staleCluster) [] = some staleGroup ∧
      ¬ Along (applyRecorded 1 1) (ReturnsRecorded 1 1) ⟨staleGroup, fun _ => none⟩
        [.add (conf6 7 1) none] := by
  refine ⟨rfl, ?_⟩
  rintro ⟨_, s, hop, hret⟩
  obtain ⟨c, hins, hget⟩ : ∃ c, alMemberInsert (initChain staleCluster) (conf6 7 1) none = some c ∧
      ∃ r, gAlgFun .rr c blankMargs = some (some 0, blankMargs, r) ∧
        ∃ m, r.slots[0]? = some m ∧ m.addr = ⟨32, afInet6, 0, 0⟩ ∧ m.mid = 7 := by
    refine ⟨_, rfl, _, rfl, _, rfl, rfl, rfl⟩
  obtain ⟨c', hrr, m, hm, haddr, hmid⟩ := hget
  have hadd : applyRecorded 1 1 ⟨staleGroup, fun _ => none⟩ (.add (conf6 7 1) none) =
      some ⟨staleGroup.set (alMakeKey 1 1) (some ⟨0, c⟩), record (fun _ => none) (conf6 7 1)⟩ := by
    have hg : staleGroup (alMakeKey 1 1) = some ⟨0, initChain staleCluster⟩ := rfl
    simp only [applyRecorded, alMemberAdd, hg, Option.bind_some, hins, Option.map_some]
  cases hop.symm.trans hadd
  obtain ⟨r, hr, hslot⟩ := hret blankMargs
  have halg : algOfSchd 0 = some .rr := rfl
  simp only [alMemberLookup, Groups.set_self, halg, hrr, hm, haddr, hmid] at hr
  cases hr
  obtain ⟨conf, hlive, _, hsame⟩ := hslot (by simp)
  cases hlive
  have hne : ¬ AlAddr.SameAddress ⟨32, afInet6, 0, 0⟩ (conf6 7 1).addr := by decide
  exact hne hsame

end Aware.Member
