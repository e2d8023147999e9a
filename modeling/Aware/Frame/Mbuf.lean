import Aware.Lib.Memory
import Aware.Lib.OnesSum
import Aware.Service.World

/-!
# Frames in memory

A frame is a chain of segments. All headers are read through the data pointer of the first one,
whatever the length of its data.
-/
namespace Aware.Frames
open Aware.Memory Aware.OnesSum Aware.Service Aware.Sessions

structure Seg where
  odd : Bool
  data : List UInt8
  size : data.length < 65536

/-- `mem` is the memory from the data pointer of the first segment on; the first `dataLen` bytes
of it are data. -/
structure Mbuf where
  mem : ℕ → UInt8
  dataLen : ℕ
  size : dataLen < 65536
  odd : Bool
  next : List Seg
  port : UInt8
  udata64 : UInt64

def Mbuf.pktLen (m : Mbuf) : ℕ :=
  m.dataLen + (m.next.map fun s => s.data.length).sum

def Mbuf.bytes (m : Mbuf) : List UInt8 :=
  slice m.mem 0 m.dataLen ++ (m.next.map Seg.data).flatten

section Fields
variable (mem : ℕ → UInt8)

def field (off n : ℕ) : ℕ :=
  leNat (slice mem off n)

def field16 (off : ℕ) : UInt16 :=
  UInt16.ofNat (field mem off 2)

end Fields

theorem field_write (mem : ℕ → UInt8) (off n x : ℕ) :
    field (Memory.write mem off (leBytes n x)) off n = x % 256 ^ n := by
  have hslice : slice (Memory.write mem off (leBytes n x)) off (leBytes n x).length = leBytes n x :=
    slice_write
  rw [length_leBytes] at hslice
  rw [field, hslice, leNat_leBytes]

theorem field_write_outside {mem : ℕ → UInt8} {bs : List UInt8} {off off' n : ℕ}
    (h : off' + n ≤ off ∨ off + bs.length ≤ off') :
    field (Memory.write mem off bs) off' n = field mem off' n :=
  congrArg leNat (slice_write_outside h)

theorem ofNat_field_write (mem : ℕ → UInt8) (off : ℕ) (x : BitVec 32) :
    BitVec.ofNat 32 (field (Memory.write mem off (leBytes 4 x.toNat)) off 4) = x := by
  have hlt := x.isLt
  rw [field_write]
  exact BitVec.eq_of_toNat_eq (by simpa using hlt)

theorem field16_write (mem : ℕ → UInt8) (off : ℕ) (x : UInt16) :
    field16 (Memory.write mem off (leBytes 2 x.toNat)) off = x := by
  rw [field16, field_write]
  exact UInt16.toNat_inj.mp (by simp)

namespace Mbuf

def etherType (m : Mbuf) : UInt16 := htons (field16 m.mem 12)

def ihl (m : Mbuf) : ℕ := (m.mem 14).toNat % 16 * 4

def totalLength (m : Mbuf) : UInt16 := htons (field16 m.mem 16)

def nextProtoId (m : Mbuf) : UInt8 := m.mem 23

def payloadLen (m : Mbuf) : UInt16 := htons (field16 m.mem 18)

def proto6 (m : Mbuf) : UInt8 := m.mem 20

/-- The offset of the transport header, as `al_main_process` takes it. -/
def nextptr4 (m : Mbuf) : ℕ := 14 + m.ihl

def nextptr6 : ℕ := 54

def packet4 (m : Mbuf) : Packet where
  family := .inet
  srcAddr := ⟨BitVec.ofNat 32 (field m.mem 26 4), 0⟩
  dstAddr := ⟨BitVec.ofNat 32 (field m.mem 30 4), 0⟩
  proto := m.nextProtoId
  srcPort := field16 m.mem m.nextptr4
  dstPort := field16 m.mem (m.nextptr4 + 2)
  port := m.port
  sHaddr := BitVec.ofNat 48 (field m.mem 6 6)
  dHaddr := BitVec.ofNat 48 (field m.mem 0 6)

def packet6 (m : Mbuf) : Packet where
  family := .inet6
  srcAddr := .ofIpv6 (BitVec.ofNat 128 (field m.mem 22 16))
  dstAddr := .ofIpv6 (BitVec.ofNat 128 (field m.mem 38 16))
  proto := m.proto6
  srcPort := field16 m.mem nextptr6
  dstPort := field16 m.mem (nextptr6 + 2)
  port := m.port
  sHaddr := BitVec.ofNat 48 (field m.mem 6 6)
  dHaddr := BitVec.ofNat 48 (field m.mem 0 6)

end Mbuf

def etherTypeIpv4 : UInt16 := 0x0800

def etherTypeArp : UInt16 := 0x0806

def etherTypeIpv6 : UInt16 := 0x86dd

def ipprotoTcp : UInt8 := 6

def ipprotoUdp : UInt8 := 17

def ipprotoIcmpv6 : UInt8 := 58

/-- Where the checks of `al_main_process` send a frame. -/
inductive Route where
  | bad
  | ipv4
  | ipv6
  | icmp6
  | arp
  | other
deriving DecidableEq, Repr

def Mbuf.classify (m : Mbuf) : Route :=
  if m.etherType = etherTypeIpv4 then
    if m.pktLen < m.ihl then .bad
    else if m.pktLen < m.totalLength.toNat then .bad
    else if m.nextProtoId = ipprotoTcp ∨ m.nextProtoId = ipprotoUdp then .ipv4
    else .other
  else if m.etherType = etherTypeIpv6 then
    if m.pktLen < 40 then .bad
    -- the payload length is taken for that of the whole frame, with the comparison turned round
    else if m.payloadLen.toNat < m.pktLen then .bad
    else if m.proto6 = ipprotoTcp ∨ m.proto6 = ipprotoUdp then .ipv6
    else if m.proto6 = ipprotoIcmpv6 then .icmp6
    else .other
  else if m.etherType = etherTypeArp then .arp
  else .other

end Aware.Frames
