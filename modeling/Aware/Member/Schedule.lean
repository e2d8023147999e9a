import Aware.Member.Chain

/-!
The schedulers that choose a member of a group, and the table of groups they are called
through.
-/
namespace Aware.Member

open Cluster (Visit Outcome visitSlots visitSlots_append)

def modifyList (j : ℕ) (f : AlMember → AlMember) : List MemberCluster → List MemberCluster
  | [] => []
  | mc :: rest =>
    if j < memberClusterSize then mc.modify j f :: rest
    else mc :: modifyList (j - memberClusterSize) f rest

def AlMemberChain.modify (c : AlMemberChain) (j : ℕ) (f : AlMember → AlMember) : AlMemberChain :=
  if j < memberClusterSize then { c with inl := c.inl.modify j f }
  else { c with list := modifyList (j - memberClusterSize) f c.list }

/-- A scheduler's body over the clusters of a chain, the inline one first. `none` is a scan that
leaves its cluster. -/
def scanList {σ : Type} (body : ℕ → σ → AlMember → Visit AlMember σ σ) :
    List MemberCluster → ℕ → σ → Option (σ × List MemberCluster)
  | [], _, s => some (s, [])
  | mc :: rest, j, s =>
    match mc.scan AlMember.isUsed body j s with
    | .done s' mc' =>
      (scanList body rest (j + memberClusterSize) s').map fun r => (r.1, mc' :: r.2)
    | .stopped s' mc' => some (s', mc' :: rest)
    | .overrun => none

def AlMemberChain.scan {σ : Type} (body : ℕ → σ → AlMember → Visit AlMember σ σ)
    (c : AlMemberChain) (s : σ) : Option (σ × AlMemberChain) :=
  match c.inl.scan AlMember.isUsed body 0 s with
  | .done s' inl => (scanList body c.list memberClusterSize s').map fun r => (r.1, ⟨inl, r.2⟩)
  | .stopped s' inl => some (s', ⟨inl, c.list⟩)
  | .overrun => none

section Scan
variable {σ : Type} {body : ℕ → σ → AlMember → Visit AlMember σ σ} {P : AlMember → AlMember → Prop}

theorem scanList_spec (hP : ∀ a, P a a)
    (hnext : ∀ j s a s' a', a.isUsed = true → body j s a = .next s' a' → P a a')
    (hstop : ∀ j s a r a', a.isUsed = true → body j s a = .stop r a' → P a a')
    {l : List MemberCluster} (h : ∀ mc ∈ l, mc.Exact AlMember.isUsed) (j : ℕ) (s : σ) :
    ∃ s' l', scanList body l j s = some (s', l') ∧ List.Forall₂ (Cluster.Related P) l l' ∧
      (visitSlots AlMember.isUsed body (l.flatMap Cluster.m) j s).result =
        some (s', l'.flatMap Cluster.m) := by
  induction l generalizing j s with
  | nil => exact ⟨s, [], rfl, .nil, rfl⟩
  | cons mc l ih =>
    simp only [List.mem_cons, forall_eq_or_imp] at h
    have hrel := h.1.scan_related hP hnext hstop j s
    have hvisit := h.1.map_scan body j s
    simp only [scanList, List.flatMap_cons, visitSlots_append, ← hvisit, mc.size]
    cases hs : mc.scan AlMember.isUsed body j s with
    | done s₁ mc' =>
      rw [hs] at hrel
      obtain ⟨s₂, l', hl, hr, hv⟩ := ih h.2 (j + memberClusterSize) s₁
      refine ⟨s₂, mc' :: l', by simp only [hl, Option.map_some], .cons hrel hr, ?_⟩
      simp only [Outcome.map, Outcome.andThen]
      revert hv
      cases visitSlots AlMember.isUsed body (l.flatMap Cluster.m) (j + memberClusterSize) s₁ <;>
        simp +contextual [Outcome.result]
    | stopped s₁ mc' =>
      rw [hs] at hrel
      exact ⟨s₁, mc' :: l, rfl, .cons hrel (List.forall₂_same.mpr fun _ _ => .refl hP _), rfl⟩
    | overrun =>
      rw [hs] at hrel
      exact hrel.elim

theorem AlMemberChain.Exact.scan_spec (body : ℕ → σ → AlMember → Visit AlMember σ σ) (hP : ∀ a, P a a)
    (hnext : ∀ j s a s' a', a.isUsed = true → body j s a = .next s' a' → P a a')
    (hstop : ∀ j s a r a', a.isUsed = true → body j s a = .stop r a' → P a a')
    {c : AlMemberChain} (h : c.Exact) (s : σ) :
    ∃ s' c', c.scan body s = some (s', c') ∧ c.Related P c' ∧
      (visitSlots AlMember.isUsed body c.slots 0 s).result = some (s', c'.slots) := by
  have hlist : c.slots = (c.inl :: c.list).flatMap Cluster.m := rfl
  obtain ⟨s', l', hl, hr, hv⟩ :=
    scanList_spec hP hnext hstop (List.forall_mem_cons.mpr h) 0 s
  cases hr with
  | cons hinl hlist' =>
    rename_i inl l'
    refine ⟨s', ⟨inl, l'⟩, ?_, ⟨hinl, hlist'⟩, hlist ▸ hv⟩
    simp only [scanList, Nat.zero_add] at hl
    unfold AlMemberChain.scan
    revert hl
    cases c.inl.scan AlMember.isUsed body 0 s with
    | done s₁ mc' =>
      simp only [Option.map_eq_some_iff]
      rintro ⟨r, hr, heq⟩
      simp only [Prod.mk.injEq, List.cons.injEq] at heq
      exact ⟨r, hr, by rw [heq.1, heq.2.1, heq.2.2]⟩
    | stopped s₁ mc' =>
      simp only [Option.some.injEq, Prod.mk.injEq, List.cons.injEq]
      rintro ⟨rfl, rfl, rfl⟩
      exact ⟨rfl, rfl⟩
    | overrun => simp

end Scan

theorem slots_modifyList (l : List MemberCluster) (j : ℕ) (f : AlMember → AlMember) :
    (modifyList j f l).flatMap Cluster.m = (l.flatMap Cluster.m).modify j f := by
  induction l generalizing j with
  | nil => simp [modifyList]
  | cons mc l ih =>
    simp only [modifyList, List.flatMap_cons, Cluster.modify_append, mc.size]
    split
    · rfl
    · rw [List.flatMap_cons, ih]

theorem AlMemberChain.slots_modify (c : AlMemberChain) (j : ℕ) (f : AlMember → AlMember) :
    (c.modify j f).slots = c.slots.modify j f := by
  simp only [AlMemberChain.modify, AlMemberChain.slots, Cluster.modify_append, c.inl.size]
  split
  · rfl
  · rw [slots_modifyList]

variable {P : AlMember → AlMember → Prop} {f : AlMember → AlMember}

theorem modifyList_related (hP : ∀ a, P a a)
    (hf : ∀ a, P a (f a)) (l : List MemberCluster) (j : ℕ) :
    List.Forall₂ (Cluster.Related P) l (modifyList j f l) := by
  induction l generalizing j with
  | nil => exact .nil
  | cons mc l ih =>
    simp only [modifyList]
    split
    · exact .cons (Cluster.modify_related hP hf mc j) (List.forall₂_same.mpr fun _ _ => .refl hP _)
    · exact .cons (.refl hP mc) (ih _)

theorem AlMemberChain.modify_related (hP : ∀ a, P a a)
    (hf : ∀ a, P a (f a)) (c : AlMemberChain) (j : ℕ) :
    c.Related P (c.modify j f) := by
  unfold AlMemberChain.modify
  split
  · exact ⟨Cluster.modify_related hP hf c.inl j, List.forall₂_same.mpr fun _ _ => .refl hP _⟩
  · exact ⟨.refl hP c.inl, modifyList_related hP hf c.list _⟩

/-- The local variables of `al_alg_rr`. `best` is the position of the member and its current
weight, which the scan does not change again. -/
structure RrState where
  total : UInt32
  best : Option (ℕ × UInt16)
  deriving DecidableEq, Repr

def bump (m : AlMember) : AlMember :=
  { m with
    currentWeight := m.currentWeight + m.effectiveWeight
    effectiveWeight :=
      if m.effectiveWeight < m.weight then m.effectiveWeight + 1 else m.effectiveWeight }

def better (best : Option (ℕ × UInt16)) (j : ℕ) (currentWeight : UInt16) : Option (ℕ × UInt16) :=
  match best with
  | none => some (j, currentWeight)
  | some (i, w) => if w < currentWeight then some (j, currentWeight) else some (i, w)

def rrBody (j : ℕ) (s : RrState) (m : AlMember) : Visit AlMember RrState RrState :=
  if m.isUp then
    .next ⟨s.total + m.effectiveWeight.toUInt32, better s.best j (m.currentWeight + m.effectiveWeight)⟩
      (bump m)
  else .next s m

def charge (total : UInt32) (m : AlMember) : AlMember :=
  { m with currentWeight := (m.currentWeight.toUInt32 - total).toUInt16 }

/-- `al_alg_rr`; the weights are 16 bits wide and compared unsigned. -/
def alAlgRr (c : AlMemberChain) : Option (Option ℕ × AlMemberChain) :=
  match c.scan rrBody ⟨0, none⟩ with
  | none => none
  | some (⟨_, none⟩, c') => some (none, c')
  | some (⟨total, some (j, _)⟩, c') =>
    some (some j, c'.modify j (charge total))

def alAlgWeight (c : AlMemberChain) : Option (Option ℕ × AlMemberChain) := alAlgRr c

def alAlgRrWeight (c : AlMemberChain) : Option (Option ℕ × AlMemberChain) := alAlgRr c

/-- What `al_alg_geoip` copies to `*mptr->data`. `ext` stands for the bytes behind the slot. -/
inductive DnsData where
  | unset
  | a (addr : BitVec 32)
  | aaaa (addr : BitVec 128)
  | ext (slot : ℕ)
  deriving DecidableEq, Repr

inductive DataLen where
  | bytes (n : UInt8)
  | ext (slot : ℕ)
  deriving DecidableEq, Repr

structure AlMargs where
  mid : UInt32
  addr : AlAddr
  port : UInt16
  vid : UInt32
  ttl : UInt32
  queryType : UInt8
  data : DnsData
  dataLen : DataLen
  schd : UInt8
  deriving DecidableEq, Repr

def blankMargs : AlMargs := ⟨0, ⟨0, 0, 0, 0⟩, 0, 0, 0, 0, .unset, .bytes 0, 0⟩

/-- The first used and up member serves as a fallback; a member of the asked view ends the scan. -/
def geoipBody (vid : UInt32) (j : ℕ) (best : Option (ℕ × AlMember)) (m : AlMember) :
    Visit AlMember (Option (ℕ × AlMember)) (Option (ℕ × AlMember)) :=
  if m.isUp then
    if m.viewid = vid then .stop (some (j, m)) m
    else .next (if best = none then some (j, m) else best) m
  else .next best m

def dnsQA : UInt8 := 0x01

def dnsQNs : UInt8 := 0x02

def dnsQCname : UInt8 := 0x05

def dnsQAaaa : UInt8 := 0x1c

def AlMargs.answer (margs : AlMargs) (j : ℕ) (m : AlMember) : AlMargs :=
  let margs := { margs with queryType := m.intype, ttl := m.dnsttl }
  if m.intype = dnsQA then { margs with dataLen := .bytes 4, data := .a m.addr.naddr4 }
  else if m.intype = dnsQAaaa then { margs with dataLen := .bytes 16, data := .aaaa m.addr.naddr6 }
  else if m.intype = dnsQNs ∨ m.intype = dnsQCname then { margs with dataLen := .ext j, data := .ext j }
  else margs

def alAlgGeoip (c : AlMemberChain) (margs : AlMargs) : Option (Option ℕ × AlMargs × AlMemberChain) :=
  match c.scan (geoipBody margs.vid) none with
  | none => none
  | some (none, c') => some (none, margs, c')
  | some (some (j, m), c') => some (some j, margs.answer j m, c')

inductive Alg where
  | rr
  | weight
  | rrWeight
  | geoip
  deriving DecidableEq, Repr

def algOfSchd (schd : UInt8) : Option Alg :=
  if schd = 0 then some .rr
  else if schd = 1 then some .weight
  else if schd = 2 then some .rrWeight
  else if schd = 3 then some .geoip
  else none

def gAlgFun (alg : Alg) (c : AlMemberChain) (margs : AlMargs) :
    Option (Option ℕ × AlMargs × AlMemberChain) :=
  match alg with
  | .rr => (alAlgRr c).map fun r => (r.1, margs, r.2)
  | .weight => (alAlgWeight c).map fun r => (r.1, margs, r.2)
  | .rrWeight => (alAlgRrWeight c).map fun r => (r.1, margs, r.2)
  | .geoip => alAlgGeoip c margs

end Aware.Member
