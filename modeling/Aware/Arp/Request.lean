import Aware.Arp.Table

/-!
# Searches and ARP requests

A search that misses sends a request from the port it is made for. The request should carry an
address of the port.
-/
namespace Aware.Arp
open Aware.Service Aware.Sessions

/-- `struct ether_hdr` and `struct etharp_hdr`; the 16-bit fields as in memory. -/
structure EtharpFrame where
  dAddr : BitVec 48
  sAddr : BitVec 48
  etherType : UInt16
  hwtype : UInt16
  proto : UInt16
  hwlen : UInt8
  protolen : UInt8
  opcode : UInt16
  shwaddr : BitVec 48
  sipaddr : BitVec 32
  dhwaddr : BitVec 48
  dipaddr : BitVec 32
  deriving DecidableEq, Repr

def arpRequest : UInt16 := 1

def hwtypeEthernet : UInt16 := 1

def ethtypeArp : UInt16 := 0x0806

def ethtypeIp : UInt16 := 0x0800

def ethbroadcast : BitVec 48 := BitVec.allOnes 48

def ethzero : BitVec 48 := 0

/-- The return value, and what is handed over for the port; `mbuf` is whether there is a buffer. -/
def etharpRaw (mbuf : Bool) (port : UInt8) (ethsrc ethdst hwsrc : BitVec 48) (ipsrc : BitVec 32)
    (hwdst : BitVec 48) (ipdst : BitVec 32) (opcode : UInt16) : UInt8 × Option (UInt8 × EtharpFrame) :=
  if mbuf then
    (0, some (port,
      { dAddr := ethdst, sAddr := ethsrc, etherType := htons ethtypeArp
        hwtype := htons hwtypeEthernet, proto := htons ethtypeIp, hwlen := 6, protolen := 4
        opcode := htons opcode, shwaddr := hwsrc, sipaddr := ipsrc, dhwaddr := hwdst
        dipaddr := ipdst }))
  else (255, none)

/-- `vport_select_local_ip`: 0 when `*ip` was set, and -1 in an 8-bit variable when it was not. -/
def selectLocalIp (v : Vport) (ip : Ipcs) (f : Family) (rip : Ipcs) : UInt8 × Ipcs :=
  match vportSelectLocalIp v f rip with
  | some a => (0, a)
  | none => (255, ip)

/-- `lip` and `rip` are what the uninitialised locals hold. -/
def etharpRequest (mbuf : Bool) (v : Vport) (lip rip : Ipcs) (ipaddr : BitVec 32) :
    UInt8 × Option (UInt8 × EtharpFrame) :=
  let r := selectLocalIp v lip .inet { rip with ipv4 := ipaddr }
  if r.1 ≠ 0 then
    etharpRaw mbuf v.port v.haddr ethbroadcast v.haddr r.2.ipv4 ethzero ipaddr arpRequest
  else etharpRaw mbuf v.port v.haddr ethbroadcast v.haddr 0 ethzero ipaddr arpRequest

def arpSearch (t : Table 32) (addr : BitVec 32) (dev : Option Vport) (mbuf : Bool) (lip rip : Ipcs) :
    Option (UInt16 × BitVec 48) × Option (UInt8 × EtharpFrame) :=
  match searchEntry arpKey t addr with
  | some found => (some found, none)
  | none => (none, dev.bind fun v => (etharpRequest mbuf v lip rip addr).2)

/-- `eth_nh_request` frees its buffer and returns, so that a search that misses sends nothing. -/
def ndpSearch (t : Table 128) (addr : BitVec 128) : Option (UInt16 × BitVec 48) :=
  searchEntry ndpKey t addr

def Serves (addr : BitVec 32) (s : IpConf) : Prop :=
  s.ip.ipv4 &&& s.mask.ipv4 = addr &&& s.mask.ipv4

/-- The sender is an address of the port in the subnet of the target if there is one, else zero. -/
def SenderRight (v : Vport) (addr sender : BitVec 32) : Prop :=
  (∃ s ∈ v.ipv4, Serves addr s ∧ sender = s.ip.ipv4) ∨
    ((∀ s ∈ v.ipv4, ¬ Serves addr s) ∧ sender = 0)

instance (addr : BitVec 32) (s : IpConf) : Decidable (Serves addr s) :=
  inferInstanceAs (Decidable (_ = _))

instance (v : Vport) (addr sender : BitVec 32) : Decidable (SenderRight v addr sender) :=
  inferInstanceAs (Decidable (_ ∨ _))

theorem isSameSubnet_iff {addr : BitVec 32} {rip : Ipcs} {s : IpConf} :
    isSameSubnet .inet s.ip { rip with ipv4 := addr } s.mask = true ↔ Serves addr s := by
  rw [isSameSubnet, beq_iff_eq, Serves]

/-- The two answers of the selection are taken for each other. -/
theorem etharpRequest_sender (v : Vport) (lip rip : Ipcs) (addr : BitVec 32) :
    ∃ frame, (etharpRequest true v lip rip addr).2 = some (v.port, frame) ∧
      frame.dipaddr = addr ∧
      frame.sipaddr = if ∃ s ∈ v.ipv4, Serves addr s then 0 else lip.ipv4 := by
  rw [etharpRequest, selectLocalIp, vportSelectLocalIp]
  cases hfind : (v.ips .inet).find? fun s => isSameSubnet .inet s.ip { rip with ipv4 := addr } s.mask with
  | none =>
    have hnone : ¬ ∃ s ∈ v.ipv4, Serves addr s := by
      rintro ⟨s, hs, hserves⟩
      exact List.find?_eq_none.mp hfind s hs (isSameSubnet_iff.mpr hserves)
    rw [if_neg hnone]
    exact ⟨_, rfl, rfl, rfl⟩
  | some s =>
    have hsubnet := List.find?_some hfind
    have hsome : ∃ s ∈ v.ipv4, Serves addr s :=
      ⟨s, List.mem_of_find?_eq_some hfind, isSameSubnet_iff.mp hsubnet⟩
    rw [if_pos hsome]
    exact ⟨_, rfl, rfl, rfl⟩

theorem arp_request_sender_iff {t : Table 32} {addr : BitVec 32}
    (hmiss : searchEntry arpKey t addr = none) (v : Vport) (lip rip : Ipcs) :
    ∃ frame, arpSearch t addr (some v) true lip rip = (none, some (v.port, frame)) ∧
      (SenderRight v addr frame.sipaddr ↔
        (∃ s ∈ v.ipv4, Serves addr s ∧ s.ip.ipv4 = 0) ∨
          ((∀ s ∈ v.ipv4, ¬ Serves addr s) ∧ lip.ipv4 = 0)) := by
  obtain ⟨frame, hframe, -, hsender⟩ := etharpRequest_sender v lip rip addr
  refine ⟨frame, ?_, ?_⟩
  · rw [arpSearch, hmiss]
    simp only [Option.bind_some, hframe]
  · rw [SenderRight, hsender]
    by_cases hserved : ∃ s ∈ v.ipv4, Serves addr s
    · have hnot : ¬ ∀ s ∈ v.ipv4, ¬ Serves addr s := by
        obtain ⟨s, hs, hserves⟩ := hserved
        exact fun hall => hall s hs hserves
      simp only [if_pos hserved, hnot, false_and, or_false, eq_comm]
    · have hall : ∀ s ∈ v.ipv4, ¬ Serves addr s := fun s hs hserves => hserved ⟨s, hs, hserves⟩
      rw [if_neg hserved]
      constructor
      · rintro (⟨s, hs, hserves, -⟩ | h)
        · exact absurd hserves (hall s hs)
        · exact .inr h
      · rintro (⟨s, hs, hserves, -⟩ | h)
        · exact absurd hserves (hall s hs)
        · exact .inr h

def onePort : Vport :=
  ⟨2, 0x020000000001, [⟨⟨0x0100000a, 0⟩, ⟨0x00ffffff, 0⟩⟩], []⟩

theorem foreign_target_sender_zero :
    ∃ frame, arpSearch arpInit.arp 0x0101a8c0 (some onePort) true ⟨0, 0⟩ ⟨0, 0⟩ =
        (none, some (2, frame)) ∧ SenderRight onePort 0x0101a8c0 frame.sipaddr := by
  have hmiss : searchEntry arpKey arpInit.arp 0x0101a8c0 = none := rfl
  obtain ⟨frame, hframe, hiff⟩ := arp_request_sender_iff hmiss onePort ⟨0, 0⟩ ⟨0, 0⟩
  exact ⟨frame, hframe, hiff.mpr (by decide)⟩

theorem local_target_sender_zero :
    ∃ frame, arpSearch arpInit.arp 0x0200000a (some onePort) true ⟨0, 0⟩ ⟨0, 0⟩ =
        (none, some (2, frame)) ∧ ¬ SenderRight onePort 0x0200000a frame.sipaddr :=
  ⟨_, rfl, by decide⟩

end Aware.Arp
