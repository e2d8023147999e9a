import Aware.Lib.Keyed
import Aware.Lib.Runs
import Aware.Service.Model

/-!
# The addresses of the ports

`al_add_ip` and `al_del_ip` keep an address twice: in the list of its port and, through
`al_opt_ip`, on an interface of the kernel. The prefix length for the kernel is counted again from
the mask at every call.
-/
namespace Aware.Vports
open Aware.Service Aware.Sessions Aware.Runs

structure IpNode extends IpConf where
  id : UInt64
  iptype : UInt8
  asstype : UInt8
  deriving DecidableEq, Repr

structure AlDev where
  id : Int16
  ipv4 : List IpNode
  ipv6 : List IpNode

def AlDev.list (d : AlDev) : Family → List IpNode
  | .inet => d.ipv4
  | .inet6 => d.ipv6

inductive KernelAddr where
  | inet (ip : BitVec 32) (prefixlen : ℕ)
  | inet6 (ip : BitVec 128) (prefixlen : ℕ)
  deriving DecidableEq, Repr

structure State where
  devs : List AlDev
  kernel : Finset (UInt8 × KernelAddr)

def ones {w : ℕ} (x : BitVec w) : ℕ :=
  (List.range w).countP fun i => x.getLsbD i

/-- `__builtin_popcount`, which takes an `unsigned int`, as it is stored in a byte. -/
def builtinPopcount {w : ℕ} (x : BitVec w) : ℕ :=
  ones (x.setWidth 32) % 256

def IpNode.sent (f : Family) (ip : IpNode) : KernelAddr :=
  match f with
  | .inet => .inet ip.ip.ipv4 (builtinPopcount ip.mask.ipv4)
  | .inet6 => .inet6 ip.ip.ipv6 (builtinPopcount ip.mask.ipv6)

/-- The comparison of a signed 16-bit id with an unsigned 32-bit one. -/
def findPort (devs : List AlDev) (portid : UInt32) : Option ℕ :=
  devs.findIdx? fun d => d.id.toInt32.toUInt32 == portid

/-- `al_opt_ip`; `ok` is whether the message can be sent. -/
def alOptIp (s : State) (ok : Bool) (index : UInt8) (isAdd : Bool) (a : KernelAddr) : Int × State :=
  if ok then
    (0, { s with kernel := if isAdd then insert (index, a) s.kernel else s.kernel.erase (index, a) })
  else (-1, s)

def AlDev.push (f : Family) (ip : IpNode) (d : AlDev) : AlDev :=
  match f with
  | .inet => { d with ipv4 := ip :: d.ipv4 }
  | .inet6 => { d with ipv6 := ip :: d.ipv6 }

def AlDev.remove (f : Family) (ipid : UInt64) (d : AlDev) : AlDev :=
  match f with
  | .inet => { d with ipv4 := d.ipv4.eraseP fun s => s.id == ipid }
  | .inet6 => { d with ipv6 := d.ipv6.eraseP fun s => s.id == ipid }

/-- The entry that is made in the memory `fresh`; the part of the union that is not assigned
stays as it was. -/
def makeIp (f : Family) (fresh : IpNode) (ipid : UInt64) (addr maddr : AlAddr) (ipclass : UInt8) :
    IpNode :=
  match f with
  | .inet =>
    { ip := { fresh.ip with ipv4 := addr.naddr4 }, mask := { fresh.mask with ipv4 := maddr.naddr4 }
      id := ipid, iptype := afInet, asstype := ipclass &&& 7 }
  | .inet6 =>
    { ip := .ofIpv6 addr.naddr6, mask := .ofIpv6 maddr.naddr6
      id := ipid, iptype := afInet6, asstype := ipclass &&& 7 }

def familyOf (family : UInt8) : Option Family :=
  if family = afInet then some .inet else if family = afInet6 then some .inet6 else none

def alAddIp (s : State) (fresh : Option IpNode) (ok : Bool) (ifindex : UInt8) (ipid : UInt64)
    (portid : UInt32) (addr maddr : AlAddr) (ipclass : UInt8) : Int × State :=
  match findPort s.devs portid, fresh, familyOf addr.family with
  | some i, some fresh, some f =>
    let ip := makeIp f fresh ipid addr maddr ipclass
    alOptIp { s with devs := s.devs.modify i (AlDev.push f ip) } ok ifindex true (ip.sent f)
  | _, _, _ => (-1, s)

/-- The families are searched one after the other; an id that is in neither list is a success. -/
def alDelIp (s : State) (ok : Bool) (ifindex : UInt8) (ipid : UInt64) (portid : UInt32) :
    Int × State :=
  match (findPort s.devs portid).bind fun i => (s.devs[i]?).map fun d => (i, d) with
  | none => (-1, s)
  | some (i, d) =>
    match d.ipv4.find? fun e => e.id == ipid with
    | some e =>
      alOptIp { s with devs := s.devs.modify i (AlDev.remove .inet ipid) } ok ifindex false
        (e.sent .inet)
    | none =>
      match d.ipv6.find? fun e => e.id == ipid with
      | some e =>
        alOptIp { s with devs := s.devs.modify i (AlDev.remove .inet6 ipid) } ok ifindex false
          (e.sent .inet6)
      | none => (0, s)

inductive Op where
  | add (fresh : Option IpNode) (ok : Bool) (ifindex : UInt8) (ipid : UInt64) (portid : UInt32)
      (addr maddr : AlAddr) (ipclass : UInt8)
  | del (ok : Bool) (ifindex : UInt8) (ipid : UInt64) (portid : UInt32)

def call (s : State) : Op → Int × State
  | .add fresh ok ifindex ipid portid addr maddr ipclass =>
    alAddIp s fresh ok ifindex ipid portid addr maddr ipclass
  | .del ok ifindex ipid portid => alDelIp s ok ifindex ipid portid

def step (s : State) (op : Op) : Option State :=
  if (call s op).1 = 0 then some (call s op).2 else none

def initial (ids : List Int16) : State :=
  ⟨ids.map fun id => ⟨id, [], []⟩, ∅⟩

def IpNode.wanted (f : Family) (ip : IpNode) : KernelAddr :=
  match f with
  | .inet => .inet ip.ip.ipv4 (ones ip.mask.ipv4)
  | .inet6 => .inet6 ip.ip.ipv6 (ones ip.mask.ipv6)

def AlDev.wanted (d : AlDev) : List KernelAddr :=
  d.ipv4.map (IpNode.wanted .inet) ++ d.ipv6.map (IpNode.wanted .inet6)

def State.wanted (s : State) : List KernelAddr :=
  s.devs.flatMap AlDev.wanted

def Agree (s : State) : Prop :=
  s.kernel.image Prod.snd = s.wanted.toFinset

instance (s : State) : Decidable (Agree s) :=
  inferInstanceAs (Decidable (_ = _))

def Op.Contiguous : Op → Prop
  | .add _ _ _ _ _ addr maddr _ =>
    (addr.family = afInet → ∃ m : Mask 32, maddr.naddr4 = netOrder m.bits) ∧
      (addr.family = afInet6 → ∃ m : Mask 128, maddr.naddr6 = netOrder m.bits)
  | .del _ _ _ _ => True

def AlDev.found (d : AlDev) (ipid : UInt64) : Option (Family × IpNode) :=
  ((d.ipv4.find? fun e => e.id == ipid).map (Prod.mk .inet)).or
    ((d.ipv6.find? fun e => e.id == ipid).map (Prod.mk .inet6))

def State.dev (s : State) (portid : UInt32) : Option AlDev :=
  (findPort s.devs portid).bind fun i => s.devs[i]?

def Fresh (s : State) : Op → Prop
  | .add _ _ _ ipid portid _ _ _ =>
    ∀ d ∈ s.dev portid, ipid ∉ (d.ipv4 ++ d.ipv6).map IpNode.id
  | .del _ _ _ _ => True

/-- The mask of an addition has no ones behind its first word; a deletion finds another entry for
the address exactly when the kernel has one. -/
def Fits (s : State) : Op → Prop
  | .add _ _ _ _ _ addr maddr _ => addr.family = afInet6 → ones maddr.naddr6 ≤ 32
  | .del _ ifindex ipid portid =>
    ∀ x ∈ (s.dev portid).bind fun d => d.found ipid,
      (x.2.wanted x.1 ∈ s.wanted.erase (x.2.wanted x.1) ↔
        ∃ y ∈ s.kernel, y.1 ≠ ifindex ∧ y.2 = x.2.wanted x.1)

instance (s : State) : (op : Op) → Decidable (Fresh s op)
  | .add _ _ _ ipid portid _ _ _ =>
    inferInstanceAs (Decidable (∀ d ∈ s.dev portid, ipid ∉ (d.ipv4 ++ d.ipv6).map IpNode.id))
  | .del _ _ _ _ => .isTrue trivial

instance (s : State) : (op : Op) → Decidable (Fits s op)
  | .add _ _ _ _ _ addr maddr _ =>
    inferInstanceAs (Decidable (addr.family = afInet6 → ones maddr.naddr6 ≤ 32))
  | .del _ ifindex ipid portid =>
    inferInstanceAs (Decidable (∀ x ∈ (s.dev portid).bind fun d => d.found ipid,
      (x.2.wanted x.1 ∈ s.wanted.erase (x.2.wanted x.1) ↔
        ∃ y ∈ s.kernel, y.1 ≠ ifindex ∧ y.2 = x.2.wanted x.1)))

def Served (s : State) (op : Op) : Prop :=
  (step s op).isSome ∧ Fits s op

instance (s : State) (op : Op) : Decidable (Served s op) :=
  inferInstanceAs (Decidable (_ ∧ _))

def note (devs : List AlDev) (l : List (ℕ × Family × UInt64)) : Op → List (ℕ × Family × UInt64)
  | .add _ _ _ ipid portid addr _ _ =>
    match findPort devs portid, familyOf addr.family with
    | some i, some f => (i, f, ipid) :: l
    | _, _ => l
  | .del _ _ ipid portid =>
    l.filter fun e => !(findPort devs portid == some e.1 && e.2.2 == ipid)

def State.ids (s : State) (i : ℕ) (f : Family) : List UInt64 :=
  ((s.devs[i]?.map fun d => d.list f).getD []).map IpNode.id

def notedAt (l : List (ℕ × Family × UInt64)) (i : ℕ) (f : Family) : List UInt64 :=
  (l.filter fun e => e.1 == i && e.2.1 == f).map fun e => e.2.2

inductive Change (s : State) : Op → State → Prop
  | added {fresh : IpNode} {ok : Bool} {ifindex : UInt8} {ipid : UInt64} {portid : UInt32}
      {addr maddr : AlAddr} {ipclass : UInt8} {i : ℕ} {d : AlDev} {f : Family}
      (hport : findPort s.devs portid = some i) (hd : s.devs[i]? = some d)
      (hf : familyOf addr.family = some f) :
      Change s (.add (some fresh) ok ifindex ipid portid addr maddr ipclass)
        ⟨s.devs.modify i (AlDev.push f (makeIp f fresh ipid addr maddr ipclass)),
          insert (ifindex, (makeIp f fresh ipid addr maddr ipclass).sent f) s.kernel⟩
  | removed {ok : Bool} {ifindex : UInt8} {ipid : UInt64} {portid : UInt32} {i : ℕ} {d : AlDev}
      {f : Family} {e : IpNode} (hport : findPort s.devs portid = some i)
      (hd : s.devs[i]? = some d) (he : d.found ipid = some (f, e)) :
      Change s (.del ok ifindex ipid portid)
        ⟨s.devs.modify i (AlDev.remove f ipid), s.kernel.erase (ifindex, e.sent f)⟩
  | missing {ok : Bool} {ifindex : UInt8} {ipid : UInt64} {portid : UInt32} {i : ℕ} {d : AlDev}
      (hport : findPort s.devs portid = some i) (hd : s.devs[i]? = some d)
      (he : d.found ipid = none) : Change s (.del ok ifindex ipid portid) s

variable {i : ℕ} {s : State} {d : AlDev} {e : IpNode} {ipid : UInt64} {f : Family}

theorem getElem?_of_findPort {devs : List AlDev} {portid : UInt32}
    (h : findPort devs portid = some i) : ∃ d, devs[i]? = some d := by
  obtain ⟨hlt, -⟩ := List.findIdx?_eq_some_iff_getElem.mp h
  exact ⟨devs[i], List.getElem?_eq_getElem hlt⟩

theorem alOptIp_ok {s' : State} {ok isAdd : Bool} {index : UInt8} {a : KernelAddr}
    (hrc : (alOptIp s ok index isAdd a).1 = 0) (hs : (alOptIp s ok index isAdd a).2 = s') :
    s' = ⟨s.devs, if isAdd then insert (index, a) s.kernel else s.kernel.erase (index, a)⟩ := by
  cases ok with
  | false => cases hrc
  | true => exact hs.symm

theorem change_of_step {s' : State} {op : Op} (h : step s op = some s') : Change s op s' := by
  unfold step at h
  split at h
  · rename_i hrc
    have hs := Option.some.inj h
    cases op with
    | add fresh ok ifindex ipid portid addr maddr ipclass =>
      simp only [call, alAddIp] at hrc hs
      split at hrc
      · rename_i i fresh f hport hf
        obtain ⟨d, hd⟩ := getElem?_of_findPort hport
        rw [hport, hf] at hs
        cases alOptIp_ok hrc hs
        exact .added hport hd hf
      · cases hrc
    | del ok ifindex ipid portid =>
      simp only [call, alDelIp] at hrc hs
      split at hrc
      · cases hrc
      · rename_i i d hdev
        obtain ⟨i', hport, hd⟩ := Option.bind_eq_some_iff.mp hdev
        obtain ⟨d', hd, heq⟩ := Option.map_eq_some_iff.mp hd
        cases heq
        rw [hdev] at hs
        simp only at hs
        split at hrc
        · rename_i e he
          rw [he] at hs
          cases alOptIp_ok hrc hs
          exact .removed hport hd (by rw [AlDev.found, he]; rfl)
        · rename_i hnone
          rw [hnone] at hs
          simp only at hs
          split at hrc
          · rename_i e he
            rw [he] at hs
            cases alOptIp_ok hrc hs
            exact .removed hport hd (by rw [AlDev.found, hnone, he]; rfl)
          · rename_i hnone'
            rw [hnone'] at hs
            cases hs
            exact .missing hport hd (by rw [AlDev.found, hnone, hnone']; rfl)
  · cases h

section Masks

theorem ones_le {w : ℕ} (x : BitVec w) : ones x ≤ w := by
  have hle : ones x ≤ (List.range w).length := List.countP_le_length
  rwa [List.length_range] at hle

theorem builtinPopcount_eq {w : ℕ} (x : BitVec w) : builtinPopcount x = ones (x.setWidth 32) := by
  have hle := ones_le (x.setWidth 32)
  exact Nat.mod_eq_of_lt (by omega)

theorem ones_netOrder :
    ∀ i : Fin 129, ones (netOrder (BitStrings.leadingOnes i.val : BitVec 128)) = i.val ∧
      ones ((netOrder (BitStrings.leadingOnes i.val : BitVec 128)).setWidth 32) = min i.val 32 := by
  decide +kernel

/-- The first word of a long mask is all ones, whatever follows. -/
theorem builtinPopcount_mask (m : Mask 128) :
    builtinPopcount (netOrder m.bits) = min (ones (netOrder m.bits)) 32 := by
  obtain ⟨hall, hword⟩ := ones_netOrder ⟨m.len, Nat.lt_succ_of_le m.le⟩
  rw [builtinPopcount_eq, Mask.bits, hall, hword]

end Masks

structure Inv (s : State) : Prop where
  short : ∀ j ip n, (j, KernelAddr.inet6 ip n) ∈ s.kernel → n ≤ 32
  masks : ∀ d ∈ s.devs, ∀ e ∈ d.ipv6, ∃ m : Mask 128, e.mask.ipv6 = netOrder m.bits

theorem split_modify {devs : List AlDev} (hd : devs[i]? = some d) (g : AlDev → AlDev) :
    ∃ pre post, devs = pre ++ d :: post ∧ devs.modify i g = pre ++ g d :: post ∧ pre.length = i := by
  obtain ⟨hlt, rfl⟩ := List.getElem?_eq_some_iff.mp hd
  refine ⟨devs.take i, devs.drop (i + 1), ?_, List.modify_eq_take_cons_drop hlt,
    List.length_take_of_le hlt.le⟩
  rw [List.getElem_cons_drop hlt, List.take_append_drop]

theorem perm_eraseP {l : List IpNode} {p : IpNode → Bool} (h : l.find? p = some e) :
    l.Perm (e :: l.eraseP p) := by
  obtain ⟨hp, as, bs, rfl, hbefore⟩ := List.find?_eq_some_iff_append.mp h
  have hskip : ∀ a ∈ as, ¬ p a = true := fun a ha => by simpa using hbefore a ha
  rw [List.eraseP_append_right _ hskip, List.eraseP_cons_of_pos hp]
  exact List.perm_middle

theorem AlDev.wanted_push (f : Family) (ip : IpNode) (d : AlDev) :
    (d.push f ip).wanted.Perm (ip.wanted f :: d.wanted) := by
  cases f with
  | inet => exact .refl _
  | inet6 => exact List.perm_middle

theorem AlDev.found_eq_some (h : d.found ipid = some (f, e)) :
    (d.list f).find? (fun e => e.id == ipid) = some e := by
  rcases Option.or_eq_some_iff.mp h with h | ⟨-, h⟩
  · obtain ⟨e', he', heq⟩ := Option.map_eq_some_iff.mp h
    cases heq
    exact he'
  · obtain ⟨e', he', heq⟩ := Option.map_eq_some_iff.mp h
    cases heq
    exact he'

theorem AlDev.wanted_remove
    (h : d.found ipid = some (f, e)) : d.wanted.Perm (e.wanted f :: (d.remove f ipid).wanted) := by
  have hperm := (perm_eraseP (AlDev.found_eq_some h)).map (IpNode.wanted f)
  cases f with
  | inet => exact hperm.append_right _
  | inet6 => exact (hperm.append_left _).trans List.perm_middle

theorem perm_amid {α : Type} {a : α} {l l' : List α} (h : l.Perm (a :: l')) (pre post : List α) :
    (pre ++ (l ++ post)).Perm (a :: (pre ++ (l' ++ post))) :=
  ((h.append_right post).append_left pre).trans List.perm_middle

section Wanted
variable {s : State} {i : ℕ} {d : AlDev} (hd : s.devs[i]? = some d)
include hd

theorem wanted_push (f : Family) (ip : IpNode) (k : Finset (UInt8 × KernelAddr)) :
    (State.wanted ⟨s.devs.modify i (AlDev.push f ip), k⟩).Perm (ip.wanted f :: s.wanted) := by
  obtain ⟨pre, post, hdevs, hmod, -⟩ := split_modify hd (AlDev.push f ip)
  rw [State.wanted, State.wanted, hmod, hdevs]
  simp only [List.flatMap_append, List.flatMap_cons]
  exact perm_amid (AlDev.wanted_push f ip d) _ _

theorem wanted_remove {ipid : UInt64} {f : Family} {e : IpNode} (he : d.found ipid = some (f, e))
    (k : Finset (UInt8 × KernelAddr)) :
    s.wanted.Perm (e.wanted f :: State.wanted ⟨s.devs.modify i (AlDev.remove f ipid), k⟩) := by
  obtain ⟨pre, post, hdevs, hmod, -⟩ := split_modify hd (AlDev.remove f ipid)
  rw [State.wanted, State.wanted, hmod, hdevs]
  simp only [List.flatMap_append, List.flatMap_cons]
  exact perm_amid (AlDev.wanted_remove he) _ _

end Wanted

theorem mem_wanted_of_found
    (hd : s.devs[i]? = some d) (he : d.found ipid = some (f, e)) : e.wanted f ∈ s.wanted :=
  (wanted_remove hd he s.kernel).mem_iff.mpr List.mem_cons_self

theorem sent_eq_wanted (hinv : Inv s) (hagree : Agree s) (hd : s.devs[i]? = some d)
    (he : d.found ipid = some (f, e)) : e.sent f = e.wanted f := by
  cases f with
  | inet =>
    rw [IpNode.sent, IpNode.wanted, builtinPopcount_eq, BitVec.setWidth_eq]
  | inet6 =>
    have hmem : e.wanted .inet6 ∈ s.kernel.image Prod.snd := by
      rw [hagree, List.mem_toFinset]
      exact mem_wanted_of_found hd he
    obtain ⟨⟨j, a⟩, hkernel, rfl⟩ := Finset.mem_image.mp hmem
    have hshort : ones e.mask.ipv6 ≤ 32 := hinv.short j _ _ hkernel
    obtain ⟨m, hm⟩ := hinv.masks d (List.mem_of_getElem? hd) e
      (List.mem_of_find?_eq_some (AlDev.found_eq_some he))
    rw [IpNode.sent, IpNode.wanted, hm, builtinPopcount_mask, ← hm, Nat.min_eq_left hshort]

section Step
variable {s s' : State} {op : Op}

theorem familyOf_eq_inet6 {family : UInt8} : familyOf family = some .inet6 ↔ family = afInet6 := by
  unfold familyOf
  split
  · rename_i h
    simp [h, afInet, afInet6]
  · split <;> simp_all

variable {f : Family} {d : AlDev} {i : ℕ}

theorem sent_makeIp (hinv : Inv s) (fresh : IpNode) (ipid : UInt64) (addr : AlAddr)
    {maddr : AlAddr} (ipclass : UInt8)
    (hmask : f = .inet6 → ∃ m : Mask 128, maddr.naddr6 = netOrder m.bits) :
    let ip := makeIp f fresh ipid addr maddr ipclass
    ((f = .inet6 → ones maddr.naddr6 ≤ 32) ∧ ip.sent f = ip.wanted f) ∨
      (f = .inet6 ∧ 32 < ones maddr.naddr6 ∧ ip.wanted f ≠ ip.sent f ∧
        ∀ j, (j, ip.wanted f) ∉ s.kernel) := by
  cases f with
  | inet =>
    left
    refine ⟨by simp, ?_⟩
    rw [IpNode.sent, IpNode.wanted, builtinPopcount_eq, BitVec.setWidth_eq]
  | inet6 =>
    obtain ⟨m, hm⟩ := hmask rfl
    simp only [IpNode.sent, IpNode.wanted, makeIp, Ipcs.ipv6_ofIpv6, true_and, forall_const]
    have hcount : builtinPopcount maddr.naddr6 = min (ones maddr.naddr6) 32 := by
      rw [hm, builtinPopcount_mask]
    rw [hcount]
    rcases Nat.lt_or_ge 32 (ones maddr.naddr6) with hlong | hshort
    · right
      refine ⟨hlong, ?_, ?_⟩
      · intro heq
        have hlen := (KernelAddr.inet6.inj heq).2
        omega
      · intro j hmem
        exact absurd (hinv.short j _ _ hmem) (Nat.not_le.mpr hlong)
    · left
      exact ⟨hshort, by rw [Nat.min_eq_left hshort]⟩

theorem agree_added_iff (hinv : Inv s) (hagree : Agree s) {fresh : IpNode} {ifindex : UInt8}
    {ipid : UInt64} {addr maddr : AlAddr} {ipclass : UInt8} (hd : s.devs[i]? = some d)
    (hmask : f = .inet6 → ∃ m : Mask 128, maddr.naddr6 = netOrder m.bits) :
    let ip := makeIp f fresh ipid addr maddr ipclass
    Agree ⟨s.devs.modify i (AlDev.push f ip), insert (ifindex, ip.sent f) s.kernel⟩ ↔
      (f = .inet6 → ones maddr.naddr6 ≤ 32) := by
  intro ip
  have hwanted := List.toFinset_eq_of_perm _ _
    (wanted_push hd f ip (insert (ifindex, ip.sent f) s.kernel))
  rw [Agree, hwanted, List.toFinset_cons, Finset.image_insert, hagree]
  rcases sent_makeIp hinv fresh ipid addr ipclass hmask with ⟨hfits, heq⟩ | ⟨rfl, hlong, hne, hnew⟩
  · exact iff_of_true (by rw [heq]) hfits
  · refine iff_of_false ?_ fun hfits => absurd (hfits rfl) (Nat.not_le.mpr hlong)
    intro hsame
    have hmem : ip.wanted .inet6 ∈ insert (ip.sent .inet6) s.wanted.toFinset := by
      rw [hsame]
      exact Finset.mem_insert_self _ _
    rcases Finset.mem_insert.mp hmem with heq | hmem
    · exact hne heq
    · rw [← hagree] at hmem
      obtain ⟨⟨j, a⟩, hkernel, rfl⟩ := Finset.mem_image.mp hmem
      exact hnew j hkernel

theorem image_erase_eq_iff {α β : Type} [DecidableEq α] [DecidableEq β] {K : Finset (α × β)}
    {W : Finset β} {j : α} {k : β} (hK : K.image Prod.snd = insert k W) :
    (K.erase (j, k)).image Prod.snd = W ↔ (k ∈ W ↔ ∃ y ∈ K, y.1 ≠ j ∧ y.2 = k) := by
  have hself : k ∈ (K.erase (j, k)).image Prod.snd ↔ ∃ y ∈ K, y.1 ≠ j ∧ y.2 = k := by
    simp only [Finset.mem_image, Finset.mem_erase, Prod.ext_iff, not_and, ne_eq]
    constructor
    · rintro ⟨y, ⟨hne, hy⟩, rfl⟩
      exact ⟨y, hy, fun hj => hne hj rfl, rfl⟩
    · rintro ⟨y, hy, hj, rfl⟩
      exact ⟨y, ⟨fun h => absurd h hj, hy⟩, rfl⟩
  have hother : ∀ x, x ≠ k → (x ∈ (K.erase (j, k)).image Prod.snd ↔ x ∈ W) := by
    intro x hx
    have hmem : x ∈ K.image Prod.snd ↔ x ∈ W := by
      rw [hK, Finset.mem_insert]
      exact or_iff_right hx
    rw [← hmem]
    simp only [Finset.mem_image, Finset.mem_erase]
    constructor
    · rintro ⟨y, ⟨-, hy⟩, rfl⟩
      exact ⟨y, hy, rfl⟩
    · rintro ⟨y, hy, rfl⟩
      exact ⟨y, ⟨fun h => hx (congrArg Prod.snd h), hy⟩, rfl⟩
  rw [Finset.ext_iff]
  constructor
  · intro h
    rw [← hself, h k]
  · intro h x
    by_cases hx : x = k
    · rw [hx, hself, h]
    · exact hother x hx

theorem agree_removed_iff (hinv : Inv s) (hagree : Agree s) {ifindex : UInt8} {ipid : UInt64}
    {e : IpNode} (hd : s.devs[i]? = some d) (he : d.found ipid = some (f, e)) :
    Agree ⟨s.devs.modify i (AlDev.remove f ipid), s.kernel.erase (ifindex, e.sent f)⟩ ↔
      (e.wanted f ∈ s.wanted.erase (e.wanted f) ↔
        ∃ y ∈ s.kernel, y.1 ≠ ifindex ∧ y.2 = e.wanted f) := by
  have hperm := wanted_remove hd he (s.kernel.erase (ifindex, e.sent f))
  have hrest := hperm.erase (e.wanted f)
  rw [List.erase_cons_head] at hrest
  have hkernel := hagree.trans (List.toFinset_eq_of_perm _ _ hperm)
  rw [List.toFinset_cons] at hkernel
  rw [Agree, sent_eq_wanted hinv hagree hd he] at *
  rw [image_erase_eq_iff hkernel, List.mem_toFinset, hrest.mem_iff]

theorem agree_iff_fits (hinv : Inv s) (hagree : Agree s) (hmask : op.Contiguous)
    (h : Change s op s') : Agree s' ↔ Fits s op := by
  cases h with
  | added hport hd hf =>
    rw [Fits, ← familyOf_eq_inet6, hf, Option.some.injEq]
    exact agree_added_iff hinv hagree hd fun h6 => hmask.2 (familyOf_eq_inet6.mp (h6 ▸ hf))
  | removed hport hd he =>
    rw [agree_removed_iff hinv hagree hd he, Fits]
    simp [State.dev, hport, hd, he]
  | missing hport hd he =>
    simp [hagree, Fits, State.dev, hport, hd, he]

theorem mem_modify {devs : List AlDev} {d' : AlDev} (hd : devs[i]? = some d)
    {g : AlDev → AlDev} (h : d' ∈ devs.modify i g) : d' ∈ devs ∨ d' = g d := by
  obtain ⟨pre, post, hdevs, hmod, -⟩ := split_modify hd g
  rw [hmod] at h
  rw [hdevs]
  simp only [List.mem_append, List.mem_cons] at h ⊢
  rcases h with h | rfl | h
  · exact .inl (.inl h)
  · exact .inr rfl
  · exact .inl (.inr (.inr h))

theorem inv_change (hinv : Inv s) (hmask : op.Contiguous) (h : Change s op s') : Inv s' := by
  cases h with
  | @added fresh _ ifindex ipid _ addr maddr ipclass i d f hport hd hf =>
    refine ⟨?_, ?_⟩
    · intro j ip n hmem
      rcases Finset.mem_insert.mp hmem with heq | hmem
      · cases f with
        | inet => cases (Prod.mk.inj heq).2
        | inet6 =>
          have hlen := (KernelAddr.inet6.inj (Prod.mk.inj heq).2).2
          rw [hlen, builtinPopcount_eq]
          exact ones_le _
      · exact hinv.short j ip n hmem
    · intro d' hd' e he
      rcases mem_modify hd hd' with hd' | rfl
      · exact hinv.masks d' hd' e he
      · have hold := hinv.masks d (List.mem_of_getElem? hd) e
        cases f with
        | inet => exact hold he
        | inet6 =>
          rcases List.mem_cons.mp he with rfl | he
          · obtain ⟨m, hm⟩ := hmask.2 (familyOf_eq_inet6.mp hf)
            exact ⟨m, (Ipcs.ipv6_ofIpv6 _).trans hm⟩
          · exact hold he
  | @removed _ ifindex ipid _ i d f e hport hd he =>
    refine ⟨fun j ip n hmem => hinv.short j ip n (Finset.mem_of_mem_erase hmem), ?_⟩
    intro d' hd' e' he'
    rcases mem_modify hd hd' with hd' | rfl
    · exact hinv.masks d' hd' e' he'
    · refine hinv.masks d (List.mem_of_getElem? hd) e' ?_
      cases f with
      | inet => exact he'
      | inet6 => exact List.mem_of_mem_eraseP he'
  | missing hport hd he => exact hinv

end Step

theorem inv_initial (ids : List Int16) : Inv (initial ids) := by
  refine ⟨fun j ip n hmem => absurd hmem (Finset.notMem_empty _), ?_⟩
  intro d hd e he
  obtain ⟨id, -, rfl⟩ := List.mem_map.mp hd
  cases he

theorem agree_initial (ids : List Int16) : Agree (initial ids) := by
  have hwanted : (initial ids).wanted = [] := by
    rw [State.wanted, List.flatMap_eq_nil_iff]
    intro d hd
    obtain ⟨id, -, rfl⟩ := List.mem_map.mp hd
    rfl
  rw [Agree, hwanted]
  rfl

section Ids
variable {devs : List AlDev} {d : AlDev} {s : State} {ipid : UInt64}
variable {l : List (ℕ × Family × UInt64)}

theorem findPort_modify {g : AlDev → AlDev} (hg : ∀ d, (g d).id = d.id) (i : ℕ)
    (portid : UInt32) : findPort (devs.modify i g) portid = findPort devs portid := by
  have hmap : (devs.modify i g).map AlDev.id = devs.map AlDev.id := by
    induction devs generalizing i with
    | nil => cases i <;> rfl
    | cons d devs ih =>
      cases i with
      | zero => rw [List.modify_zero_cons, List.map_cons, List.map_cons, hg]
      | succ i => rw [List.modify_succ_cons, List.map_cons, List.map_cons, ih]
  have hfind : ∀ l : List AlDev, findPort l portid =
      (l.map AlDev.id).findIdx? fun id => id.toInt32.toUInt32 == portid := by
    intro l
    rw [List.findIdx?_map]
    rfl
  rw [hfind, hfind, hmap]

theorem ids_modify {i : ℕ} (hd : s.devs[i]? = some d) (g : AlDev → AlDev)
    (k : Finset (UInt8 × KernelAddr)) (j : ℕ) (f : Family) :
    State.ids ⟨s.devs.modify i g, k⟩ j f =
      if j = i then ((g d).list f).map IpNode.id else s.ids j f := by
  rw [State.ids, List.getElem?_modify]
  by_cases hj : j = i
  · subst hj
    simp [hd]
  · simp [State.ids, hj, Ne.symm hj]

theorem ids_of_dev {i : ℕ} (hd : s.devs[i]? = some d) (f : Family) :
    s.ids i f = (d.list f).map IpNode.id := by
  rw [State.ids, hd]
  rfl

theorem notedAt_filter (l : List (ℕ × Family × UInt64)) (i : ℕ) (ipid : UInt64) (j : ℕ)
    (f : Family) :
    notedAt (l.filter fun e => !(some i == some e.1 && e.2.2 == ipid)) j f =
      if j = i then (notedAt l j f).filter (· != ipid) else notedAt l j f := by
  split
  · rename_i hj
    subst hj
    rw [notedAt, notedAt, List.filter_map, List.filter_filter, List.filter_filter]
    congr 1
    apply List.filter_congr
    intro e _
    by_cases he : e.1 = j
    · simp [he, bne, Bool.and_comm]
    · simp [beq_eq_false_iff_ne.mpr he]
  · rename_i hj
    rw [notedAt, notedAt, List.filter_filter]
    congr 1
    apply List.filter_congr
    intro e _
    by_cases he : e.1 = j
    · simp [he, Ne.symm hj]
    · simp [he]

theorem notedAt_cons (l : List (ℕ × Family × UInt64)) (i : ℕ) (f : Family) (ipid : UInt64) (j : ℕ)
    (f' : Family) :
    notedAt ((i, f, ipid) :: l) j f' =
      if j = i ∧ f' = f then ipid :: notedAt l j f' else notedAt l j f' := by
  rw [notedAt, List.filter_cons]
  by_cases h : j = i ∧ f' = f
  · obtain ⟨rfl, rfl⟩ := h
    simp [notedAt]
  · have hne : (i == j && f == f') = false := by
      rw [Bool.and_eq_false_iff, beq_eq_false_iff_ne, beq_eq_false_iff_ne]
      by_cases hj : j = i
      · exact .inr fun hf => h ⟨hj, hf.symm⟩
      · exact .inl (Ne.symm hj)
    simp only [hne, Bool.false_eq_true, if_false, if_neg h]
    rfl

theorem AlDev.list_push (f : Family) (ip : IpNode) (d : AlDev) (f' : Family) :
    (d.push f ip).list f' = if f' = f then ip :: d.list f' else d.list f' := by
  cases f <;> cases f' <;> rfl

theorem AlDev.list_remove (f : Family) (ipid : UInt64) (d : AlDev) (f' : Family) :
    (d.remove f ipid).list f' =
      if f' = f then (d.list f').eraseP (fun e => e.id == ipid) else d.list f' := by
  cases f <;> cases f' <;> rfl

theorem ids_eraseP {l : List IpNode} (h : (l.map IpNode.id).Nodup) (ipid : UInt64) :
    (l.eraseP fun e => e.id == ipid).map IpNode.id = (l.map IpNode.id).filter (· != ipid) := by
  rw [Keyed.eraseP_eq_filter h, List.filter_map]
  rfl

theorem filter_ne_of_notMem {l : List UInt64} (h : ipid ∉ l) : l.filter (· != ipid) = l := by
  refine List.filter_eq_self.mpr ?_
  intro id hid
  rw [bne_iff_ne]
  rintro rfl
  exact h hid

def AlDev.Distinct (d : AlDev) : Prop :=
  ((d.ipv4 ++ d.ipv6).map IpNode.id).Nodup

theorem AlDev.Distinct.list (h : d.Distinct) (f : Family) : ((d.list f).map IpNode.id).Nodup := by
  rw [AlDev.Distinct, List.map_append] at h
  cases f with
  | inet => exact h.of_append_left
  | inet6 => exact h.of_append_right

theorem AlDev.Distinct.other (h : d.Distinct) {f f' : Family} (hne : f' ≠ f)
    (hmem : ipid ∈ (d.list f).map IpNode.id) :
    ipid ∉ (d.list f').map IpNode.id := by
  rw [AlDev.Distinct, List.map_append, List.nodup_append] at h
  intro hmem'
  cases f <;> cases f'
  · exact hne rfl
  · exact h.2.2 ipid hmem ipid hmem' rfl
  · exact h.2.2 ipid hmem' ipid hmem rfl
  · exact hne rfl

theorem ids_remove (h : d.Distinct) {f : Family} {e : IpNode}
    (he : d.found ipid = some (f, e)) (f' : Family) :
    ((d.remove f ipid).list f').map IpNode.id = ((d.list f').map IpNode.id).filter (· != ipid) := by
  rw [AlDev.list_remove]
  split
  · exact ids_eraseP (h.list f') ipid
  · rename_i hne
    have hfound := AlDev.found_eq_some he
    have hid : e.id = ipid := by simpa using List.find?_some hfound
    have hmem : ipid ∈ (d.list f).map IpNode.id :=
      List.mem_map.mpr ⟨e, List.mem_of_find?_eq_some hfound, hid⟩
    exact (filter_ne_of_notMem (h.other hne hmem)).symm

theorem ids_missing (he : d.found ipid = none) (f' : Family) :
    (d.list f').map IpNode.id = ((d.list f').map IpNode.id).filter (· != ipid) := by
  have hnone : ∀ e ∈ d.list f', e.id ≠ ipid := by
    rw [AlDev.found, Option.or_eq_none_iff, Option.map_eq_none_iff, Option.map_eq_none_iff,
      List.find?_eq_none, List.find?_eq_none] at he
    intro e hmem
    cases f' with
    | inet => simpa using he.1 e hmem
    | inet6 => simpa using he.2 e hmem
  refine (filter_ne_of_notMem ?_).symm
  intro hmem
  obtain ⟨e, he, heq⟩ := List.mem_map.mp hmem
  exact hnone e he heq

structure Noted (devs : List AlDev) (s : State) (l : List (ℕ × Family × UInt64)) : Prop where
  ports : ∀ portid, findPort s.devs portid = findPort devs portid
  ids : ∀ i f, s.ids i f = notedAt l i f
  distinct : ∀ d ∈ s.devs, d.Distinct

theorem noted_change {s' : State} {op : Op}
    (h : Noted devs s l) (hfresh : Fresh s op) (hchange : Change s op s') :
    Noted devs s' (note devs l op) := by
  cases hchange with
  | @added fresh _ ifindex ipid portid addr maddr ipclass i d f hport hd hf =>
    have hdev : s.dev portid = some d := by rw [State.dev, hport]; exact hd
    have hold := h.distinct d (List.mem_of_getElem? hd)
    have hid : (makeIp f fresh ipid addr maddr ipclass).id = ipid := by cases f <;> rfl
    rw [h.ports] at hport
    refine ⟨fun portid => ?_, fun j f' => ?_, fun d' hd' => ?_⟩
    · rw [← h.ports]
      exact findPort_modify (fun d => by cases f <;> rfl) i portid
    · rw [ids_modify hd, note, hport, hf, notedAt_cons, AlDev.list_push, ← h.ids]
      by_cases hj : j = i
      · subst hj
        rw [ids_of_dev hd]
        by_cases hf' : f' = f <;> simp [hf', hid]
      · simp [hj]
    · rcases mem_modify hd hd' with hd' | rfl
      · exact h.distinct d' hd'
      · have hnew : ((d.push f (makeIp f fresh ipid addr maddr ipclass)).ipv4 ++
            (d.push f (makeIp f fresh ipid addr maddr ipclass)).ipv6).Perm
            (makeIp f fresh ipid addr maddr ipclass :: (d.ipv4 ++ d.ipv6)) := by
          cases f with
          | inet => exact .refl _
          | inet6 => exact List.perm_middle
        rw [AlDev.Distinct, (hnew.map IpNode.id).nodup_iff, List.map_cons, hid]
        exact List.nodup_cons.mpr ⟨hfresh d hdev, hold⟩
  | @removed _ ifindex ipid portid i d f e hport hd he =>
    have hold := h.distinct d (List.mem_of_getElem? hd)
    rw [h.ports] at hport
    refine ⟨fun portid => ?_, fun j f' => ?_, fun d' hd' => ?_⟩
    · rw [← h.ports]
      exact findPort_modify (fun d => by cases f <;> rfl) i portid
    · rw [ids_modify hd, note, hport, notedAt_filter, ← h.ids, ids_remove hold he]
      split
      · rename_i hj
        rw [hj, ids_of_dev hd]
      · rfl
    · rcases mem_modify hd hd' with hd' | rfl
      · exact h.distinct d' hd'
      · have h4 : (d.remove f ipid).ipv4.map IpNode.id = (d.ipv4.map IpNode.id).filter (· != ipid) :=
          ids_remove hold he .inet
        have h6 : (d.remove f ipid).ipv6.map IpNode.id = (d.ipv6.map IpNode.id).filter (· != ipid) :=
          ids_remove hold he .inet6
        rw [AlDev.Distinct, List.map_append] at hold ⊢
        rw [h4, h6, ← List.filter_append]
        exact hold.filter _
  | @missing _ ifindex ipid portid i d hport hd he =>
    rw [h.ports] at hport
    refine ⟨h.ports, fun j f' => ?_, h.distinct⟩
    rw [note, hport, notedAt_filter, ← h.ids]
    split
    · rename_i hj
      rw [hj, ids_of_dev hd]
      exact ids_missing he f'
    · rfl

theorem noted_initial (ids : List Int16) : Noted (initial ids).devs (initial ids) [] := by
  refine ⟨fun _ => rfl, fun i f => ?_, fun d hd => ?_⟩
  · rw [State.ids, initial, List.getElem?_map]
    cases ids[i]? with
    | none => rfl
    | some id => cases f <;> rfl
  · obtain ⟨id, -, rfl⟩ := List.mem_map.mp hd
    exact List.nodup_nil

theorem noted_run {s' : State}
    {ops : List Op} (h : Noted devs s l) (hfresh : Guarded step Fresh s ops)
    (hrun : ops.foldlM step s = some s') : Noted devs s' (ops.foldl (note devs) l) := by
  induction ops generalizing s l with
  | nil =>
    cases hrun
    exact h
  | cons op ops ih =>
    rw [List.foldlM_cons, Option.bind_eq_bind, Option.bind_eq_some_iff] at hrun
    obtain ⟨s₁, hs₁, hrest⟩ := hrun
    exact ih (noted_change h hfresh.1 (change_of_step hs₁)) (hfresh.2 s₁ hs₁) hrest

end Ids

/-- The lists always hold the ids they should. All calls succeed and kernel and lists agree after
each exactly when all calls succeed and fit. -/
theorem addresses_agree_iff (ids : List Int16) (ops : List Op) (hmask : ∀ op ∈ ops, op.Contiguous)
    (hfresh : Guarded step Fresh (initial ids) ops) :
    (∀ s, ops.foldlM step (initial ids) = some s →
      ∀ i f, s.ids i f = notedAt (ops.foldl (note (initial ids).devs) []) i f) ∧
    (Along step Agree (initial ids) ops ↔ Guarded step Served (initial ids) ops) := by
  refine ⟨fun s hs => (noted_run (noted_initial ids) hfresh hs).ids, ?_⟩
  refine along_iff_guarded ?_ ?_ (inv_initial ids) (agree_initial ids)
  · intro s op hop s' hinv hs'
    exact inv_change hinv (hmask op hop) (change_of_step hs')
  · intro s op hop hinv hagree
    rw [Served, Option.isSome_iff_exists]
    constructor
    · rintro ⟨s', hs', hagree'⟩
      exact ⟨⟨s', hs'⟩, (agree_iff_fits hinv hagree (hmask op hop) (change_of_step hs')).mp hagree'⟩
    · rintro ⟨⟨s', hs'⟩, hfits⟩
      exact ⟨s', hs', (agree_iff_fits hinv hagree (hmask op hop) (change_of_step hs')).mpr hfits⟩

section Interfaces

def placed (ifOf : ℕ → UInt8) (devs : List AlDev) : List (UInt8 × KernelAddr) :=
  devs.zipIdx.flatMap fun p => p.1.wanted.map (Prod.mk (ifOf p.2))

def given (addr maddr : AlAddr) : Family → KernelAddr
  | .inet => .inet addr.naddr4 (ones maddr.naddr4)
  | .inet6 => .inet6 addr.naddr6 (ones maddr.naddr6)

def Plain (ifOf : ℕ → UInt8) (s : State) : Op → Prop
  | .add _ _ ifindex _ portid addr maddr _ =>
    (addr.family = afInet6 → ones maddr.naddr6 ≤ 32) ∧
      ∀ i f, findPort s.devs portid = some i → familyOf addr.family = some f →
        ifindex = ifOf i ∧ (ifindex, given addr maddr f) ∉ placed ifOf s.devs
  | .del _ ifindex _ portid => ∀ i, findPort s.devs portid = some i → ifindex = ifOf i

structure Placed (ifOf : ℕ → UInt8) (s : State) : Prop where
  inv : Inv s
  kernel : s.kernel = (placed ifOf s.devs).toFinset
  nodup : (placed ifOf s.devs).Nodup

variable {ifOf : ℕ → UInt8} {s s' : State} {op : Op}

theorem wanted_makeIp (f : Family) (fresh : IpNode) (ipid : UInt64) (addr maddr : AlAddr)
    (ipclass : UInt8) : (makeIp f fresh ipid addr maddr ipclass).wanted f = given addr maddr f := by
  cases f with
  | inet => rfl
  | inet6 => simp only [IpNode.wanted, makeIp, Ipcs.ipv6_ofIpv6, given]

theorem Placed.agree (h : Placed ifOf s) : Agree s := by
  have hport : ∀ (l : List KernelAddr) (j : UInt8), (l.map (Prod.mk j)).map Prod.snd = l := by
    intro l j
    rw [List.map_map]
    exact List.map_id l
  have hwanted : (placed ifOf s.devs).map Prod.snd = s.wanted := by
    rw [placed, State.wanted, List.map_flatMap]
    simp only [hport]
    rw [← List.flatMap_map, List.zipIdx_map_fst]
  ext a
  rw [h.kernel, ← hwanted, Finset.mem_image, List.mem_toFinset, List.mem_map]
  simp only [List.mem_toFinset]

theorem placed_modify (ifOf : ℕ → UInt8) {devs : List AlDev} {i : ℕ} {d : AlDev} (hd : devs[i]? = some d)
    (g : AlDev → AlDev) :
    ∃ rest, (placed ifOf devs).Perm (d.wanted.map (Prod.mk (ifOf i)) ++ rest) ∧
      (placed ifOf (devs.modify i g)).Perm ((g d).wanted.map (Prod.mk (ifOf i)) ++ rest) := by
  obtain ⟨pre, post, rfl, hmod, rfl⟩ := split_modify hd g
  have hplaced : ∀ e : AlDev, placed ifOf (pre ++ e :: post) =
      (pre.zipIdx.flatMap fun p => p.1.wanted.map (Prod.mk (ifOf p.2))) ++
        (e.wanted.map (Prod.mk (ifOf pre.length)) ++
          (post.zipIdx (pre.length + 1)).flatMap fun p => p.1.wanted.map (Prod.mk (ifOf p.2))) := by
    intro e
    rw [placed, List.zipIdx_append, List.zipIdx_cons, List.flatMap_append, List.flatMap_cons,
      Nat.zero_add]
  rw [hmod, hplaced d, hplaced (g d)]
  exact ⟨_, List.perm_append_comm_assoc _ _ _, List.perm_append_comm_assoc _ _ _⟩

theorem Placed.change (h : Placed ifOf s) (hmask : op.Contiguous) (hplain : Plain ifOf s op)
    (hc : Change s op s') : Placed ifOf s' := by
  have hinv := inv_change h.inv hmask hc
  cases hc with
  | @added fresh _ ifindex ipid portid addr maddr ipclass i d f hport hd hf =>
    obtain ⟨hshort, hnew⟩ := hplain
    obtain ⟨rfl, hnew⟩ := hnew i f hport hf
    have hsent : (makeIp f fresh ipid addr maddr ipclass).sent f = given addr maddr f := by
      rw [← wanted_makeIp f fresh ipid addr maddr ipclass]
      rcases sent_makeIp h.inv fresh ipid addr ipclass
        (fun h6 => hmask.2 (familyOf_eq_inet6.mp (h6 ▸ hf))) with ⟨-, heq⟩ | ⟨rfl, hlong, -⟩
      · exact heq
      · exact absurd (hshort (familyOf_eq_inet6.mp hf)) (Nat.not_le.mpr hlong)
    obtain ⟨rest, hold, hperm⟩ := placed_modify ifOf hd
      (AlDev.push f (makeIp f fresh ipid addr maddr ipclass))
    have hcons := hperm.trans (((AlDev.wanted_push f _ d).map (Prod.mk (ifOf i))).append_right rest)
    rw [List.map_cons, List.cons_append, wanted_makeIp] at hcons
    have hall := hcons.trans (hold.symm.cons _)
    rw [hsent] at hinv ⊢
    refine ⟨hinv, ?_, hall.nodup_iff.mpr (List.nodup_cons.mpr ⟨hnew, h.nodup⟩)⟩
    rw [List.toFinset_eq_of_perm _ _ hall, List.toFinset_cons, h.kernel]
  | @removed _ ifindex ipid portid i d f e hport hd he =>
    cases hplain i hport
    rw [sent_eq_wanted h.inv h.agree hd he] at hinv ⊢
    obtain ⟨rest, hold, hperm⟩ := placed_modify ifOf hd (AlDev.remove f ipid)
    have hcons := hold.trans (((AlDev.wanted_remove he).map (Prod.mk (ifOf i))).append_right rest)
    rw [List.map_cons, List.cons_append] at hcons
    have hall := hcons.trans (hperm.symm.cons _)
    obtain ⟨hnew, hnodup⟩ := List.nodup_cons.mp (hall.nodup_iff.mp h.nodup)
    refine ⟨hinv, ?_, hnodup⟩
    change s.kernel.erase _ = _
    rw [h.kernel, List.toFinset_eq_of_perm _ _ hall, List.toFinset_cons, Finset.erase_insert]
    rwa [List.mem_toFinset]
  | missing hport hd he => exact h

/-- It is enough that no address is twice on an interface and that each port keeps to its own. -/
theorem addresses_agree_of_plain (ids : List Int16) {ops : List Op}
    (hg : Guarded step (fun s op => (step s op).isSome ∧ op.Contiguous ∧ Plain ifOf s op) (initial ids)
      ops) : Along step Agree (initial ids) ops := by
  refine Along.of_guarded (fun s (hs : Placed ifOf s) => hs.agree) (fun s op hs h => ?_) ?_ hg
  · obtain ⟨s', hs'⟩ := Option.isSome_iff_exists.mp h.1
    exact ⟨s', hs', hs.change h.2.1 h.2.2 (change_of_step hs')⟩
  · have hnone : placed ifOf (initial ids).devs = [] := by
      rw [placed, List.flatMap_eq_nil_iff]
      intro p hp
      obtain ⟨id, -, hid⟩ := List.mem_map.mp (List.fst_mem_of_mem_zipIdx hp)
      rw [← hid]
      rfl
    exact ⟨inv_initial ids, by rw [hnone]; rfl, by rw [hnone]; exact List.nodup_nil⟩

end Interfaces

def blankIp : IpNode :=
  ⟨⟨⟨0, 0⟩, ⟨0, 0⟩⟩, 0, 0, 0⟩

def addInet : Op :=
  .add (some blankIp) true 3 7 1 ⟨8, afInet, 0x0100000a, 0⟩ ⟨8, afInet, 0x00ffffff, 0⟩ 0

def addInet6 (n : ℕ) : Op :=
  .add (some blankIp) true 3 8 1 ⟨32, afInet6, 0, 1⟩
    ⟨32, afInet6, 0, netOrder (BitStrings.leadingOnes n)⟩ 0

def mixedOps : List Op :=
  [addInet, addInet6 32, .del true 3 7 1]

theorem addInet6_contiguous {n : ℕ} (hn : n ≤ 128) : (addInet6 n).Contiguous :=
  ⟨fun h => absurd h (by decide), fun _ => ⟨⟨n, hn⟩, rfl⟩⟩

theorem mixed_addresses_agree :
    Guarded step Fresh (initial [1]) mixedOps ∧ Along step Agree (initial [1]) mixedOps := by
  have hmask : ∀ op ∈ mixedOps, op.Contiguous := by
    intro op hop
    simp only [mixedOps, List.mem_cons, List.not_mem_nil, or_false] at hop
    rcases hop with rfl | rfl | rfl
    · exact ⟨fun _ => ⟨⟨24, by decide⟩, by decide +kernel⟩, fun h => absurd h (by decide)⟩
    · exact addInet6_contiguous (by decide)
    · trivial
  have hfresh : Guarded step Fresh (initial [1]) mixedOps := by decide +kernel
  exact ⟨hfresh, (addresses_agree_iff [1] mixedOps hmask hfresh).2.mpr (by decide +kernel)⟩

theorem ipv6_prefix_cut :
    (addInet6 64).Contiguous ∧ Guarded step Fresh (initial [1]) [addInet6 64] ∧
      ∃ s, step (initial [1]) (addInet6 64) = some s ∧ ¬ Agree s := by
  refine ⟨addInet6_contiguous (by decide), by decide +kernel, ?_⟩
  have hcut : ((step (initial [1]) (addInet6 64)).any fun s => !decide (Agree s)) = true := by
    decide +kernel
  obtain ⟨s, hs, hn⟩ := (Option.any_eq_true _ _).mp hcut
  exact ⟨s, hs, by simpa using hn⟩

end Aware.Vports
