import Aware.Frame.Chksum

/-!
# Rewriting a frame

`al_process` writes the ends of the upstream session into the headers of a frame and computes the
checksums anew. It takes the transport header for one of TCP, whatever the protocol.
-/
namespace Aware.Frames
open Aware.Memory Aware.OnesSum Aware.Sessions

def fltLlb : UInt8 := 2

def Mbuf.write (m : Mbuf) (off : ℕ) (bs : List UInt8) : Mbuf :=
  { m with mem := Memory.write m.mem off bs }

section Model
variable {ι : Type}

def setHardware (s up : Session ι) (m : Mbuf) : Mbuf :=
  let m := m.write 0 (leBytes 6 up.fromHaddr.toNat)
  if s.isDr then m else m.write 6 (leBytes 6 up.toHaddr.toNat)

def setPorts (up : Session ι) (hdr : ℕ) (m : Mbuf) : Mbuf :=
  (m.write hdr (leBytes 2 up.localPort.toNat)).write (hdr + 2) (leBytes 2 up.remotePort.toNat)

def setAddrs4 (up : Session ι) (m : Mbuf) : Mbuf :=
  (m.write 26 (leBytes 4 up.localAddr.ipv4.toNat)).write 30 (leBytes 4 up.remoteAddr.ipv4.toNat)

def setAddrs6 (up : Session ι) (m : Mbuf) : Mbuf :=
  (m.write 22 (leBytes 16 up.localAddr.ipv6.toNat)).write 38 (leBytes 16 up.remoteAddr.ipv6.toNat)

/-- The frame when the transport checksum is about to be computed: new ends, and zero at
`hdr->cksum` of `struct tcp_hdr`. -/
def setEnds (s up : Session ι) (m : Mbuf) (hdr : ℕ) : Mbuf :=
  let m := setPorts up hdr (setHardware s up m)
  (if up.inType then setAddrs6 up m else setAddrs4 up m).write (hdr + 16) [0, 0]

def words (m : Mbuf) (off : ℕ) : List UInt32 :=
  (List.range 8).map fun i => UInt32.ofNat (field m.mem (off + 2 * i) 2)

def transportChksum (inType : Bool) (m : Mbuf) (hdr : ℕ) : UInt16 :=
  if inType then
    inet6ChksumPseudo m hdr (words m 22) (words m 38) m.proto6 (m.payloadLen.toUInt32 - 40)
  else
    inetChksumPseudo m hdr (UInt32.ofNat (field m.mem 26 4)) (UInt32.ofNat (field m.mem 30 4))
      m.nextProtoId (m.totalLength - UInt16.ofNat m.ihl)

def setTransportChksum (inType : Bool) (m : Mbuf) (hdr : ℕ) : Mbuf :=
  m.write (hdr + 16) (leBytes 2 (transportChksum inType m hdr).toNat)

def setHeaderChksum (m : Mbuf) : Mbuf :=
  let m := m.write 24 [0, 0]
  m.write 24 (leBytes 2 (inetChksum m.odd (slice m.mem 14 m.ihl)).toNat)

def alProcess (s up : Session ι) (m : Mbuf) (hdr : ℕ) : Mbuf :=
  if s.ftype = fltLlb then setHardware s up m
  else
    let m := setTransportChksum up.inType (setEnds s up m hdr) hdr
    if up.inType then m else setHeaderChksum m

end Model

/-- What forwarding an IPv4 frame is to change: the Ethernet addresses, the checksum and
addresses of the IP header, the ports, and the checksum of the frame's own transport protocol. -/
def Mbuf.MayChange (m : Mbuf) (i : ℕ) : Prop :=
  i < 12 ∨ 24 ≤ i ∧ i < 34 ∨ m.nextptr4 ≤ i ∧ i < m.nextptr4 + 4 ∨
    m.nextProtoId = ipprotoTcp ∧ m.nextptr4 + 16 ≤ i ∧ i < m.nextptr4 + 18 ∨
    m.nextProtoId = ipprotoUdp ∧ m.nextptr4 + 6 ≤ i ∧ i < m.nextptr4 + 8

instance (m : Mbuf) (i : ℕ) : Decidable (m.MayChange i) :=
  inferInstanceAs (Decidable (_ ∨ _))

structure KeepsRest (m m' : Mbuf) : Prop where
  dataLen : m'.dataLen = m.dataLen
  next : m'.next = m.next
  bytes : ∀ i < m.dataLen, ¬ m.MayChange i → m'.mem i = m.mem i

/-- Writing `bs` at `off` does no harm: each byte comes behind the data, to a place where it does
not matter, or on its own value. -/
def Harmless (m : Mbuf) (free : ℕ → Prop) (off : ℕ) (bs : List UInt8) : Prop :=
  ∀ k, ∀ b ∈ bs[k]?, off + k < m.dataLen → ¬ free (off + k) → m.mem (off + k) = b

def AtChksum (hdr i : ℕ) : Prop :=
  hdr + 16 ≤ i ∧ i < hdr + 18

section Frame
variable {ι : Type} {s up : Session ι} {m : Mbuf} {hdr i : ℕ}

theorem write_mem_outside {off : ℕ} {bs : List UInt8} (h : i < off ∨ off + bs.length ≤ i) :
    (m.write off bs).mem i = m.mem i :=
  write_outside h

theorem setHardware_mem (h : 12 ≤ i) : (setHardware s up m).mem i = m.mem i := by
  unfold setHardware
  split
  · exact write_mem_outside (by rw [length_leBytes]; omega)
  · rw [write_mem_outside (by rw [length_leBytes]; omega),
      write_mem_outside (by rw [length_leBytes]; omega)]

theorem setPorts_mem (h : i < hdr ∨ hdr + 4 ≤ i) : (setPorts up hdr m).mem i = m.mem i := by
  rw [setPorts, write_mem_outside (by rw [length_leBytes]; omega),
    write_mem_outside (by rw [length_leBytes]; omega)]

theorem setAddrs4_mem (h : i < 26 ∨ 34 ≤ i) : (setAddrs4 up m).mem i = m.mem i := by
  rw [setAddrs4, write_mem_outside (by rw [length_leBytes]; omega),
    write_mem_outside (by rw [length_leBytes]; omega)]

theorem setHeaderChksum_mem (h : i < 24 ∨ 26 ≤ i) : (setHeaderChksum m).mem i = m.mem i := by
  rw [setHeaderChksum, write_mem_outside (by rw [length_leBytes]; omega),
    write_mem_outside (by rw [List.length_cons, List.length_singleton]; omega)]

theorem setTransportChksum_mem {inType : Bool} (h : i < hdr + 16 ∨ hdr + 18 ≤ i) :
    (setTransportChksum inType m hdr).mem i = m.mem i :=
  write_mem_outside (by rw [length_leBytes]; omega)

theorem setTransportChksum_at {inType : Bool} {k : ℕ} {b : UInt8}
    (h : (leBytes 2 (transportChksum inType m hdr).toNat)[k]? = some b) :
    (setTransportChksum inType m hdr).mem (hdr + 16 + k) = b := by
  obtain ⟨hk, rfl⟩ := List.getElem?_eq_some_iff.mp h
  exact write_inside hk

theorem setAddrs6_mem (h : i < 22 ∨ 54 ≤ i) : (setAddrs6 up m).mem i = m.mem i := by
  rw [setAddrs6, write_mem_outside (by rw [length_leBytes]; omega),
    write_mem_outside (by rw [length_leBytes]; omega)]

theorem setAddrs6_at {k : ℕ} {b : UInt8}
    (h : (leBytes 16 up.localAddr.ipv6.toNat ++ leBytes 16 up.remoteAddr.ipv6.toNat)[k]? = some b) :
    (setAddrs6 up m).mem (22 + k) = b := by
  rcases Nat.lt_or_ge k 16 with hk | hk
  · rw [List.getElem?_append_left (by rwa [length_leBytes])] at h
    obtain ⟨hlen, rfl⟩ := List.getElem?_eq_some_iff.mp h
    rw [setAddrs6, write_mem_outside (by omega)]
    exact write_inside hlen
  · rw [List.getElem?_append_right (by rwa [length_leBytes]), length_leBytes] at h
    obtain ⟨hlen, rfl⟩ := List.getElem?_eq_some_iff.mp h
    have hat : 22 + k = 38 + (k - 16) := by omega
    rw [setAddrs6, hat]
    exact write_inside hlen

theorem setEnds_shape : (setEnds s up m hdr).dataLen = m.dataLen ∧ (setEnds s up m hdr).next = m.next := by
  unfold setEnds setHardware
  split <;> split <;> exact ⟨rfl, rfl⟩

theorem setEnds_mem (hi : 12 ≤ i) (hports : i < hdr ∨ hdr + 4 ≤ i) (hsum : ¬ AtChksum hdr i)
    (h4 : up.inType = false → i < 26 ∨ 34 ≤ i) (h6 : up.inType = true → i < 22 ∨ 54 ≤ i) :
    (setEnds s up m hdr).mem i = m.mem i := by
  rw [AtChksum] at hsum
  rw [setEnds, write_mem_outside (by rw [List.length_cons, List.length_singleton]; omega)]
  cases hin : up.inType with
  | false => rw [if_neg Bool.false_ne_true, setAddrs4_mem (h4 hin), setPorts_mem hports, setHardware_mem hi]
  | true => rw [if_pos rfl, setAddrs6_mem (h6 hin), setPorts_mem hports, setHardware_mem hi]

theorem setEnds_at {k : ℕ} {b : UInt8} (hin : up.inType = true) (hsum : ¬ AtChksum hdr (22 + k))
    (h : (leBytes 16 up.localAddr.ipv6.toNat ++ leBytes 16 up.remoteAddr.ipv6.toNat)[k]? = some b) :
    (setEnds s up m hdr).mem (22 + k) = b := by
  rw [AtChksum] at hsum
  rw [setEnds, write_mem_outside (by rw [List.length_cons, List.length_singleton]; omega), if_pos hin,
    setAddrs6_at h]

theorem alProcess_of_ne (h : s.ftype ≠ fltLlb) :
    alProcess s up m hdr = if up.inType then setTransportChksum true (setEnds s up m hdr) hdr
      else setHeaderChksum (setTransportChksum false (setEnds s up m hdr) hdr) := by
  rw [alProcess, if_neg h]
  cases up.inType with
  | false => rw [if_neg Bool.false_ne_true, if_neg Bool.false_ne_true]
  | true => rw [if_pos rfl, if_pos rfl]

theorem alProcess_shape (h : s.ftype ≠ fltLlb) :
    (alProcess s up m hdr).dataLen = m.dataLen ∧ (alProcess s up m hdr).next = m.next := by
  rw [alProcess_of_ne h]
  split <;> exact setEnds_shape

theorem alProcess_mem (h : s.ftype ≠ fltLlb) (hi : i < 24 ∨ 26 ≤ i) :
    (alProcess s up m hdr).mem i =
      (setTransportChksum up.inType (setEnds s up m hdr) hdr).mem i := by
  rw [alProcess_of_ne h]
  cases up.inType with
  | false => exact setHeaderChksum_mem hi
  | true => rfl

/-- `al_process` keeps the rest of a frame exactly when what it writes in the place of a TCP
checksum, and for an IPv6 pair of the addresses, does no harm. -/
theorem alProcess_keepsRest_iff (h : s.ftype ≠ fltLlb) :
    KeepsRest m (alProcess s up m m.nextptr4) ↔
      Harmless m m.MayChange (m.nextptr4 + 16) (leBytes 2
          (transportChksum up.inType (setEnds s up m m.nextptr4) m.nextptr4).toNat) ∧
        (up.inType = true → Harmless m (fun i => m.MayChange i ∨ AtChksum m.nextptr4 i) 22
          (leBytes 16 up.localAddr.ipv6.toNat ++ leBytes 16 up.remoteAddr.ipv6.toNat)) := by
  constructor
  · intro hk
    constructor
    · intro k b hb hlt hfree
      have hkept := hk.bytes _ hlt hfree
      rw [alProcess_mem h (by unfold Mbuf.MayChange at hfree; omega),
        setTransportChksum_at hb] at hkept
      exact hkept.symm
    · intro hin k b hb hlt hfree
      rw [not_or] at hfree
      have hkept := hk.bytes _ hlt hfree.1
      have hsum := hfree.2
      rw [AtChksum] at hsum
      rw [alProcess_mem h (by have hmay := hfree.1; unfold Mbuf.MayChange at hmay; omega),
        setTransportChksum_mem (by omega), setEnds_at hin hfree.2 hb] at hkept
      exact hkept.symm
  · rintro ⟨hsum, haddrs⟩
    refine ⟨(alProcess_shape h).1, (alProcess_shape h).2, fun i hlt hfree => ?_⟩
    have hmay := hfree
    unfold Mbuf.MayChange at hmay
    rw [alProcess_mem h (by omega)]
    by_cases hat : AtChksum m.nextptr4 i
    · obtain ⟨hlo, hhi⟩ := hat
      obtain ⟨k, rfl⟩ := Nat.exists_eq_add_of_le hlo
      have hk : k < (leBytes 2 (transportChksum up.inType (setEnds s up m m.nextptr4)
          m.nextptr4).toNat).length := by
        rw [length_leBytes]
        omega
      have hb := List.getElem?_eq_getElem hk
      rw [setTransportChksum_at hb]
      exact (hsum k _ hb hlt hfree).symm
    · have hout := hat
      rw [AtChksum] at hout
      rw [setTransportChksum_mem (by omega)]
      by_cases hin : up.inType = true ∧ 22 ≤ i ∧ i < 54
      · obtain ⟨hin, hlo, hhi⟩ := hin
        obtain ⟨k, rfl⟩ := Nat.exists_eq_add_of_le hlo
        have hk : k < (leBytes 16 up.localAddr.ipv6.toNat ++
            leBytes 16 up.remoteAddr.ipv6.toNat).length := by
          rw [List.length_append, length_leBytes, length_leBytes]
          omega
        have hb := List.getElem?_eq_getElem hk
        rw [setEnds_at hin hat hb]
        exact (haddrs hin k _ hb hlt (not_or.mpr ⟨hfree, hat⟩)).symm
      · rw [not_and] at hin
        refine setEnds_mem (by omega) (by omega) hat (by omega) fun hv6 => ?_
        have hrange := hin hv6
        omega

theorem harmless_of_tcp (h : m.nextProtoId = ipprotoTcp) (x : ℕ) :
    Harmless m m.MayChange (m.nextptr4 + 16) (leBytes 2 x) := by
  intro k b hb hlt hfree
  have hk : k < 2 := by
    obtain ⟨hk, -⟩ := List.getElem?_eq_some_iff.mp hb
    rwa [length_leBytes] at hk
  refine absurd ?_ hfree
  unfold Mbuf.MayChange
  exact .inr (.inr (.inr (.inl ⟨h, by omega⟩)))

end Frame

def single (bs : List UInt8) (h : bs.length < 65536) : Mbuf :=
  ⟨fun i => bs.getD i 0, bs.length, h, false, [], 0, 0⟩

def headers (proto : UInt8) (total : UInt8) : List UInt8 :=
  [1, 1, 1, 1, 1, 1, 2, 2, 2, 2, 2, 2, 8, 0, 0x45, 0, 0, total, 0, 0, 0, 0, 64, proto, 0, 0,
    10, 0, 0, 1, 10, 0, 0, 2, 3, 0xe8, 0, 80]

def tcpFrame : Mbuf :=
  single (headers 6 40 ++ [0, 0, 0, 1, 0, 0, 0, 0, 0x50, 2, 0, 0, 0, 0, 0, 0]) (by decide)

def udpFrame : Mbuf :=
  single (headers 17 38 ++ [0, 18, 0, 0, 1, 2, 3, 4, 5, 6, 7, 8, 9, 10]) (by decide)

def natSession : Session ℕ :=
  ⟨false, false, 6, false, 1, false, 0, 300, 0, ⟨0x0100000a, 0⟩, ⟨0x0200000a, 0⟩, 0xe803, 0x5000, 3, 4, 1, 1⟩

theorem tcp_frame_keeps_rest : natSession.ftype ≠ fltLlb ∧ tcpFrame.classify = .ipv4 ∧
    KeepsRest tcpFrame (alProcess natSession natSession tcpFrame tcpFrame.nextptr4) := by
  refine ⟨by decide, by decide +kernel, ?_⟩
  refine (alProcess_keepsRest_iff (by decide)).mpr ⟨harmless_of_tcp (by decide) _, ?_⟩
  intro hin
  cases hin

theorem udp_payload_overwritten : natSession.ftype ≠ fltLlb ∧ udpFrame.classify = .ipv4 ∧
    ¬ KeepsRest udpFrame (alProcess natSession natSession udpFrame udpFrame.nextptr4) := by
  refine ⟨by decide, by decide +kernel, fun h => ?_⟩
  have hbyte := h.bytes 50 (by decide) (by decide +kernel)
  revert hbyte
  decide +kernel

end Aware.Frames
