import Aware.Dns.Store
import Aware.Frame.Input

/-!
# Answers to DNS queries

What an answer to a query is, and what `al_gslb_process` sends instead.
-/
namespace Aware.Frames
open Aware.Member Aware.Memory Aware.OnesSum Aware.Service

structure Directory where
  dns : Dns.DomainTree
  groups : Groups
  geoip : BitVec 32 → Option UInt32
  geoip6 : BitVec 128 → Option UInt32

/-- `behind` are the bytes that follow the name in `dm_buf`, which nothing has set. -/
def Directory.names (d : Directory) (behind : ℕ → UInt8) : Names where
  dns name := (Dns.alDnsLookup d.dns (write behind 0 name) name.length).1 = 0
  geoip addr := (d.geoip addr).isSome
  geoip6 addr := (d.geoip6 addr).isSome

structure Question where
  labels : List (List UInt8)
  type : UInt8
  label_length : ∀ label ∈ labels, 1 ≤ label.length ∧ label.length ≤ 63
  type_eq : type = dnsQA ∨ type = dnsQAaaa

namespace Question

def wireName (q : Question) : List UInt8 :=
  (q.labels.flatMap fun label => UInt8.ofNat label.length :: label) ++ [0]

def wire (q : Question) : List UInt8 :=
  q.wireName ++ [0, q.type, 0, dnsQClassIn]

def domain (q : Question) : List UInt8 :=
  [46].intercalate q.labels

end Question

structure IsDatagram (m : Mbuf) (hdr len : ℕ) : Prop where
  ip : m.etherType = etherTypeIpv4 ∧ hdr = m.nextptr4 ∧ 20 ≤ m.ihl ∧ m.nextProtoId = ipprotoUdp ∧
      m.totalLength.toNat = m.ihl + 8 + len ∨
    m.etherType = etherTypeIpv6 ∧ hdr = Mbuf.nextptr6 ∧ m.proto6 = ipprotoUdp ∧
      m.payloadLen.toNat = 8 + len
  udp : (htons (field16 m.mem (hdr + 4))).toNat = 8 + len

def qr (m : Mbuf) (hdr : ℕ) : ℕ := (m.mem (hdr + 10)).toNat / 128

def opcode (m : Mbuf) (hdr : ℕ) : ℕ := (m.mem (hdr + 10)).toNat / 8 % 16

structure IsQuery (m : Mbuf) (hdr : ℕ) (q : Question) : Prop where
  datagram : ∃ len, 12 + q.wire.length ≤ len ∧ IsDatagram m hdr len
  qr : qr m hdr = 0
  opcode : opcode m hdr = 0
  qdcount : slice m.mem (hdr + 12) 2 = [0, 1]
  question : slice m.mem (hdr + 20) q.wire.length = q.wire

def addressBytes (type : UInt8) (slot : AlMember) : List UInt8 :=
  if type = dnsQA then leBytes 4 slot.addr.naddr4.toNat else leBytes 16 slot.addr.naddr6.toNat

def answer (q : Question) (slot : AlMember) (name : List UInt8) : List UInt8 :=
  name ++ [0, q.type, 0, dnsQClassIn] ++ (leBytes 4 slot.dnsttl.toNat).reverse ++
    (leBytes 2 (addressBytes q.type slot).length).reverse ++ addressBytes q.type slot

/-- The frame `r` answers the query in `m` with the address of the member: the name of the answer
is written out or points to the question. -/
structure IsResponse (m : Mbuf) (hdr : ℕ) (q : Question) (slot : AlMember) (r : Mbuf) (hdr' : ℕ)
    (name : List UInt8) : Prop where
  name_eq : name = q.wireName ∨ name = [0xc0, 0x0c]
  datagram : IsDatagram r hdr' (12 + q.wire.length + (answer q slot name).length)
  size : r.pktLen = hdr' + 8 + (12 + q.wire.length + (answer q slot name).length)
  etherType : r.etherType = m.etherType
  source : slice r.mem 6 6 = slice m.mem 0 6
  destination : slice r.mem 0 6 = slice m.mem 6 6
  address : if m.etherType = etherTypeIpv4 then
      slice r.mem 26 4 = slice m.mem 30 4 ∧ slice r.mem 30 4 = slice m.mem 26 4
    else slice r.mem 22 16 = slice m.mem 38 16 ∧ slice r.mem 38 16 = slice m.mem 22 16
  ports : slice r.mem hdr' 2 = slice m.mem (hdr + 2) 2 ∧ slice r.mem (hdr' + 2) 2 = slice m.mem hdr 2
  qid : slice r.mem (hdr' + 8) 2 = slice m.mem (hdr + 8) 2
  qr : qr r hdr' = 1
  qdcount : slice r.mem (hdr' + 12) 2 = [0, 1]
  ancount : slice r.mem (hdr' + 14) 2 = [0, 1]
  question : slice r.mem (hdr' + 20) q.wire.length = q.wire
  answered : slice r.mem (hdr' + 20 + q.wire.length) (answer q slot name).length = answer q slot name

def Directory.Member (d : Directory) (q : Question) (slot : AlMember) : Prop :=
  ∃ r mn, Dns.alDnsLookup d.dns (Dns.buffer q.domain) q.domain.length = (0, some r) ∧
    d.groups (alMakeKey 0 r.gid) = some mn ∧ slot ∈ mn.chain.slots ∧ slot.isUsed = true ∧
    slot.isUp = true ∧ slot.intype = q.type

def Directory.Viewed (d : Directory) (m : Mbuf) : Prop :=
  if m.etherType = etherTypeIpv4 then (d.geoip (BitVec.ofNat 32 (field m.mem 26 4))).isSome = true
  else (d.geoip6 (BitVec.ofNat 128 (field m.mem 22 16))).isSome = true

structure Served (d : Directory) (m : Mbuf) (hdr : ℕ) (q : Question) : Prop where
  query : IsQuery m hdr q
  member : ∃ slot, d.Member q slot
  viewed : d.Viewed m

def Answered (d : Directory) (behind : ℕ → UInt8) (m : Mbuf) (hdr : ℕ) (q : Question) : Prop :=
  ∃ r hdr' slot name, alGslbProcess (d.names behind) m hdr = some (r, false) ∧ d.Member q slot ∧
    IsResponse m hdr q slot r hdr' name

section Flags
variable {names : Names} {m r : Mbuf} {hdr : ℕ}

theorem toNat_field16 (mem : ℕ → UInt8) (off : ℕ) :
    (field16 mem off).toNat = (mem off).toNat + 256 * (mem (off + 1)).toNat := by
  have hlow := (mem off).toNat_lt
  have hhigh := (mem (off + 1)).toNat_lt
  rw [field16, UInt16.toNat_ofNat']
  change (leNat [mem off, mem (off + 1)]) % 65536 = _
  rw [leNat, leNat, leNat]
  omega

theorem flag_qr : (htons (field16 m.mem (hdr + 10))).toNat / 32768 = qr m hdr := by
  have hlow := (m.mem (hdr + 10)).toNat_lt
  have hhigh := (m.mem (hdr + 10 + 1)).toNat_lt
  rw [htons_toNat, toNat_field16, qr]
  omega

/-- A query is passed on to the kernel, with its flags in the order of the host. -/
theorem alGslbProcess_query (h : qr m hdr = 0) : alGslbProcess names m hdr =
    some (m.write (hdr + 10) (leBytes 2 (htons (field16 m.mem (hdr + 10))).toNat), true) := by
  rw [alGslbProcess]
  exact if_pos (flag_qr.trans h)

end Flags

/-- No query is answered, whatever the tables hold. -/
theorem query_not_answered (d : Directory) (behind : ℕ → UInt8) (m : Mbuf) (hdr : ℕ) (q : Question)
    (h : Served d m hdr q) : ¬ Answered d behind m hdr q := by
  rintro ⟨r, hdr', slot, name, hsent, -⟩
  rw [alGslbProcess_query h.query.qr] at hsent
  cases hsent

def sampleBytes : List UInt8 :=
  [2, 0, 0, 0, 0, 1, 2, 0, 0, 0, 0, 2, 8, 0,
    0x45, 0, 0, 47, 0, 0, 0, 0, 64, 17, 0, 0, 10, 0, 0, 2, 10, 0, 0, 1,
    0x10, 0, 0, 53, 0, 27, 0, 0,
    0x12, 0x34, 1, 0, 0, 1, 0, 0, 0, 0, 0, 0, 1, 97, 0, 0, 1, 0, 1]

theorem length_sampleBytes : sampleBytes.length < 65536 := by decide

def sampleQuery : Mbuf where
  mem i := sampleBytes.getD i 0
  dataLen := sampleBytes.length
  size := length_sampleBytes
  odd := false
  next := []
  port := 0
  udata64 := 0

theorem sample_labels : ∀ label ∈ [[(97 : UInt8)]], 1 ≤ label.length ∧ label.length ≤ 63 := by decide

def sampleQuestion : Question :=
  ⟨[[97]], dnsQA, sample_labels, .inl rfl⟩

def sampleSlot : AlMember :=
  { AlMember.zero with isUsed := true, isUp := true, intype := dnsQA, dnsttl := 60, addr := ⟨4, 2, 0x0900000a, 0⟩ }

def sampleDirectory : Directory where
  dns := ⟨.leaf ⟨⟨7, 1⟩, [97]⟩, 1⟩
  groups key := if key = alMakeKey 0 7 then some ⟨3, ⟨⟨1, sampleSlot :: List.replicate 7 .zero, rfl⟩, []⟩⟩
    else none
  geoip _ := some 1
  geoip6 _ := none

theorem sample_served : Served sampleDirectory sampleQuery 34 sampleQuestion := by
  refine ⟨⟨⟨19, by decide, .inl ?_, by decide⟩, by decide, by decide, by decide, by decide⟩,
    ⟨sampleSlot, ⟨7, 1⟩, _, by decide, rfl, List.mem_cons_self, rfl, rfl, rfl⟩, rfl⟩
  decide

theorem query_not_answered_sample : Served sampleDirectory sampleQuery 34 sampleQuestion ∧
    ¬ Answered sampleDirectory (fun _ => 0) sampleQuery 34 sampleQuestion :=
  ⟨sample_served, query_not_answered _ _ _ _ _ sample_served⟩

theorem query_to_kernel : ¬ ∀ d behind m hdr q, Served d m hdr q → Answered d behind m hdr q := by
  intro h
  obtain ⟨r, -, -, -, hsent, -⟩ := h sampleDirectory (fun _ => 0) sampleQuery 34 sampleQuestion sample_served
  rw [alGslbProcess_query sample_served.query.qr] at hsent
  cases hsent

end Aware.Frames
