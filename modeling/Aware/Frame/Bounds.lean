import Aware.Frame.Input
import Aware.Service.Alone
import Aware.Lib.Region

/-!
# Which bytes of a frame are touched

The functions from `al_main_process` to `al_process` on a frame of one segment, access by access. A run
has a result only when all accesses are inside the frame, and then the result is that of the functions
on frames elsewhere.
-/
namespace Aware.Frames.Bounds
open Aware.Memory (slice length_slice drop_slice)
open Aware.OnesSum Aware.Service Aware.Sessions Aware.Region

section Model
variable {ι : Type} (n : ℕ)

def be16 (bs : List UInt8) : UInt16 := htons (UInt16.ofNat (leNat bs))

def byte (bs : List UInt8) : UInt8 := bs.headD 0

def headerLen (versionIhl : UInt8) : ℕ := versionIhl.toNat % 16 * 4

def setHardware (s up : Session ι) : Prog Unit := do
  write n 0 (leBytes 6 up.fromHaddr.toNat)
  if s.isDr then pure () else write n 6 (leBytes 6 up.toHaddr.toNat)

def setPorts (up : Session ι) (hdr : ℕ) : Prog Unit := do
  write n hdr (leBytes 2 up.localPort.toNat)
  write n (hdr + 2) (leBytes 2 up.remotePort.toNat)

def setAddrs4 (up : Session ι) : Prog Unit := do
  write n 26 (leBytes 4 up.localAddr.ipv4.toNat)
  write n 30 (leBytes 4 up.remoteAddr.ipv4.toNat)

def setAddrs6 (up : Session ι) : Prog Unit := do
  write n 22 (leBytes 16 up.localAddr.ipv6.toNat)
  write n 38 (leBytes 16 up.remoteAddr.ipv6.toNat)

def inetChksumPseudo (odd : Bool) (boff : ℕ) (src dest : UInt32) (proto : UInt8) (protoLen : UInt16) :
    Prog UInt16 := do
  let data ← read n boff (n - boff)
  let st := addSegment (0, false) (odd != (boff % 2 == 1)) ((n + boff) % 2 == 1) data
  let acc := addPseudo (if st.2 then swapBytesInWord st.1 else st.1) src dest proto protoLen
  pure (~~~ (foldU32t (foldU32t acc)).toUInt16)

def inet6ChksumPseudo (boff : ℕ) (src dest : List UInt32) (proto : UInt8) (protoLen : UInt32) :
    Prog UInt16 := do
  let data ← read n boff ((n + 65536 - boff) % 65536)
  let st := addSegment6 (0, false) (n % 2 == 1) data
  let acc := if st.2 then swapLow st.1 else st.1
  let acc := (src.zip dest).foldl (fun acc w => foldU32t (foldU32t (acc + w.1 + w.2))) acc
  let acc := acc + (htons proto.toUInt16).toUInt32
  let acc := acc + lowHalf protoLen + highHalf protoLen
  pure (~~~ (foldU32t (foldU32t acc)).toUInt16)

def inetChksum (odd : Bool) (off len : ℕ) : Prog UInt16 := do
  let data ← read n off len
  pure (Frames.inetChksum odd data)

def setTransportChksum4 (odd : Bool) (hdr : ℕ) : Prog Unit := do
  write n (hdr + 16) [0, 0]
  let src ← read n 26 4
  let dst ← read n 30 4
  let proto ← read n 23 1
  let total ← read n 16 2
  let versionIhl ← read n 14 1
  let sum ← inetChksumPseudo n odd hdr (UInt32.ofNat (leNat src)) (UInt32.ofNat (leNat dst)) (byte proto)
    (be16 total - UInt16.ofNat (headerLen (byte versionIhl)))
  write n (hdr + 16) (leBytes 2 sum.toNat)

def setHeaderChksum (odd : Bool) : Prog Unit := do
  write n 24 [0, 0]
  let versionIhl ← read n 14 1
  let sum ← inetChksum n odd 14 (headerLen (byte versionIhl))
  write n 24 (leBytes 2 sum.toNat)

def wordsOf (bs : List UInt8) : List UInt32 :=
  (List.range 8).map fun i => UInt32.ofNat (leNat ((bs.drop (2 * i)).take 2))

def setTransportChksum6 (hdr : ℕ) : Prog Unit := do
  write n (hdr + 16) [0, 0]
  let src ← read n 22 16
  let dst ← read n 38 16
  let proto ← read n 20 1
  let len ← read n 18 2
  let sum ← inet6ChksumPseudo n hdr (wordsOf src) (wordsOf dst) (byte proto) ((be16 len).toUInt32 - 40)
  write n (hdr + 16) (leBytes 2 sum.toNat)

def alProcess (odd : Bool) (s up : Session ι) (hdr : ℕ) : Prog Unit := do
  setHardware n s up
  if s.ftype = fltLlb then pure ()
  else do
    setPorts n up hdr
    if up.inType then do
      setAddrs6 n up
      setTransportChksum6 n hdr
    else do
      setAddrs4 n up
      setTransportChksum4 n odd hdr
      setHeaderChksum n odd

/-- Which sessions `al_process` is called with for a packet, by the input function or by
`al_service`. -/
structure Calls (ι : Type) where
  ipv4 : Packet → Option (Session ι × Session ι)
  found6 : Key → Bool
  ipv6 : Packet → Option (Session ι × Session ι)

def alIpv4Input (odd : Bool) (portid : UInt8) (call : Packet → Option (Session ι × Session ι))
    (hdr : ℕ) : Prog Unit := do
  let src ← read n 26 4
  let srcPort ← read n hdr 2
  let dst ← read n 30 4
  let dstPort ← read n (hdr + 2) 2
  let proto ← read n 23 1
  let dHaddr ← read n 0 6
  let sHaddr ← read n 6 6
  match call {
    family := .inet
    srcAddr := ⟨BitVec.ofNat 32 (leNat src), 0⟩
    dstAddr := ⟨BitVec.ofNat 32 (leNat dst), 0⟩
    proto := byte proto
    srcPort := UInt16.ofNat (leNat srcPort)
    dstPort := UInt16.ofNat (leNat dstPort)
    port := portid
    sHaddr := BitVec.ofNat 48 (leNat sHaddr)
    dHaddr := BitVec.ofNat 48 (leNat dHaddr) } with
  | some (s, up) => alProcess n odd s up hdr
  | none => pure ()

def alIpv6Input (odd : Bool) (portid : UInt8) (calls : Calls ι) : Prog Unit := do
  let src ← read n 22 16
  let sport ← read n Mbuf.nextptr6 2
  let dst ← read n 38 16
  let proto ← read n 20 1
  let srcAddr := Ipcs.ofIpv6 (BitVec.ofNat 128 (leNat src))
  let dstAddr := Ipcs.ofIpv6 (BitVec.ofNat 128 (leNat dst))
  let srcPort := UInt16.ofNat (leNat sport)
  -- the source port is handed over twice, so the other one is read only when nothing is found
  if calls.found6 (.v6 ⟨srcAddr.ipv6, dstAddr.ipv6, srcPort, srcPort, byte proto⟩) then pure ()
  else do
    let dstPort ← read n (Mbuf.nextptr6 + 2) 2
    let dHaddr ← read n 0 6
    let sHaddr ← read n 6 6
    match calls.ipv6 {
      family := .inet6
      srcAddr, dstAddr, srcPort
      proto := byte proto
      dstPort := UInt16.ofNat (leNat dstPort)
      port := portid
      sHaddr := BitVec.ofNat 48 (leNat sHaddr)
      dHaddr := BitVec.ofNat 48 (leNat dHaddr) } with
    | some (s, up) => alProcess n odd s up Mbuf.nextptr6
    | none => pure ()

def ipv4Frame (odd : Bool) (portid : UInt8) (call : Packet → Option (Session ι × Session ι)) :
    Prog Route := do
  let versionIhl ← read n 14 1
  if n < headerLen (byte versionIhl) then pure .bad
  else do
    let total ← read n 16 2
    if n < (be16 total).toNat then pure .bad
    else do
      let proto ← read n 23 1
      if byte proto = ipprotoTcp ∨ byte proto = ipprotoUdp then do
        alIpv4Input n odd portid call (14 + headerLen (byte versionIhl))
        pure .ipv4
      else pure .other

def ipv6Frame (odd : Bool) (portid : UInt8) (calls : Calls ι) : Prog Route :=
  if n < 40 then pure .bad
  else do
    let len ← read n 18 2
    if (be16 len).toNat < n then pure .bad
    else do
      let proto ← read n 20 1
      if byte proto = ipprotoTcp ∨ byte proto = ipprotoUdp then do
        alIpv6Input n odd portid calls
        pure .ipv6
      else if byte proto = ipprotoIcmpv6 then pure .icmp6
      else pure .other

def alMainProcess (odd : Bool) (portid : UInt8) (calls : Calls ι) : Prog Route := do
  let etherType ← read n 12 2
  if be16 etherType = etherTypeIpv4 then ipv4Frame n odd portid calls.ipv4
  else if be16 etherType = etherTypeIpv6 then ipv6Frame n odd portid calls
  else if be16 etherType = etherTypeArp then pure .arp
  else pure .other

end Model

section Steps
variable {α ι : Type} {s up : Session ι} {n hdr : ℕ} {odd : Bool} {m : Mbuf}

theorem setHardware_run (h : 12 ≤ n) :
    setHardware n s up m.mem = some ((), (Frames.setHardware s up m).mem) := by
  unfold setHardware Frames.setHardware
  split
  · exact bind_run (write_run (by rw [length_leBytes]; omega)) _
  · exact write_then (by rw [length_leBytes]; omega) (by rw [length_leBytes]; omega)

theorem setPorts_run (h : hdr + 4 ≤ n) :
    setPorts n up hdr m.mem = some ((), (Frames.setPorts up hdr m).mem) :=
  write_then (by rw [length_leBytes]; omega) (by rw [length_leBytes]; omega)

theorem setAddrs4_run (h : 34 ≤ n) :
    setAddrs4 n up m.mem = some ((), (Frames.setAddrs4 up m).mem) :=
  write_then (by rw [length_leBytes]; omega) (by rw [length_leBytes]; omega)

theorem setAddrs6_run (h : 54 ≤ n) :
    setAddrs6 n up m.mem = some ((), (Frames.setAddrs6 up m).mem) :=
  write_then (by rw [length_leBytes]; omega) (by rw [length_leBytes]; omega)

theorem setAddrs6_outside {mem : ℕ → UInt8} (h : n < 54) : setAddrs6 n up mem = none := by
  unfold setAddrs6
  by_cases hfirst : 22 + (leBytes 16 up.localAddr.ipv6.toNat).length ≤ n
  · rw [bind_run (write_run hfirst)]
    exact write_outside (by rw [length_leBytes]; omega) (by rw [length_leBytes]; omega)
  · exact bind_none (write_outside (by rw [length_leBytes]; omega) (Nat.lt_of_not_le hfirst)) _

theorem inetChksumPseudo_bind (hn : m.dataLen = n) (hodd : m.odd = odd) (hnext : m.next = []) (h : hdr ≤ n)
    (src dest : UInt32) (proto : UInt8) (protoLen : UInt16) (f : UInt16 → Prog α) :
    (inetChksumPseudo n odd hdr src dest proto protoLen >>= f) m.mem =
      f (Frames.inetChksumPseudo m hdr src dest proto protoLen) m.mem := by
  subst hn hodd
  rw [inetChksumPseudo, bind_assoc, read_bind (by omega), Frames.inetChksumPseudo, hnext]
  rfl

theorem inet6ChksumPseudo_bind (hn : m.dataLen = n) (hnext : m.next = []) (h : hdr ≤ n)
    (src dest : List UInt32) (proto : UInt8) (protoLen : UInt32) (f : UInt16 → Prog α) :
    (inet6ChksumPseudo n hdr src dest proto protoLen >>= f) m.mem =
      f (Frames.inet6ChksumPseudo m hdr src dest proto protoLen) m.mem := by
  have hsize := m.size
  subst hn
  have hlen : (m.dataLen + 65536 - hdr) % 65536 ≤ m.dataLen - hdr := by omega
  rw [inet6ChksumPseudo, bind_assoc, read_bind (by omega), Frames.inet6ChksumPseudo, hnext]
  rfl

theorem inetChksum_bind {off len : ℕ} (h : off + len ≤ n) (f : UInt16 → Prog α) :
    (inetChksum n odd off len >>= f) m.mem = f (Frames.inetChksum odd (slice m.mem off len)) m.mem := by
  rw [inetChksum, bind_assoc, read_bind h]
  rfl

theorem inetChksum_bind_outside {off len : ℕ} (hlen : 0 < len) (h : n < off + len) (f : UInt16 → Prog α) :
    (inetChksum n odd off len >>= f) m.mem = none := by
  rw [inetChksum, bind_assoc, read_bind_outside hlen h]

def cleared (m : Mbuf) (hdr : ℕ) : Mbuf := m.write (hdr + 16) [0, 0]

theorem setTransportChksum4_run (hn : m.dataLen = n) (hodd : m.odd = odd) (hnext : m.next = []) (h : hdr + 18 ≤ n)
    (haddrs : 34 ≤ n) : setTransportChksum4 n odd hdr m.mem =
      some ((), (Frames.setTransportChksum false (cleared m hdr) hdr).mem) := by
  rw [setTransportChksum4, bind_run (write_run (by exact h))]
  rw [read_bind (by omega), read_bind (by omega), read_bind (by omega), read_bind (by omega),
    read_bind (by omega)]
  change (inetChksumPseudo n odd hdr _ _ _ _ >>= _) (cleared m hdr).mem = _
  rw [inetChksumPseudo_bind (m := cleared m hdr) hn hodd hnext (by omega)]
  exact write_run (by rw [length_leBytes]; omega)

theorem setTransportChksum4_outside {mem : ℕ → UInt8} (h : n < hdr + 18) :
    setTransportChksum4 n odd hdr mem = none :=
  bind_none (write_outside (by decide) (by exact h)) _

theorem take_slice {mem : ℕ → UInt8} {off len k : ℕ} (h : k ≤ len) :
    (slice mem off len).take k = slice mem off k := by
  obtain ⟨j, rfl⟩ := Nat.exists_eq_add_of_le h
  rw [Memory.slice_add, List.take_left' length_slice]

theorem wordsOf_slice (m : Mbuf) (off : ℕ) : wordsOf (slice m.mem off 16) = words m off := by
  refine List.map_congr_left fun i hi => ?_
  rw [List.mem_range] at hi
  rw [drop_slice, take_slice (by omega)]
  rfl

theorem setTransportChksum6_run (hn : m.dataLen = n) (hnext : m.next = []) (h : hdr + 18 ≤ n)
    (haddrs : 54 ≤ n) : setTransportChksum6 n hdr m.mem =
      some ((), (Frames.setTransportChksum true (cleared m hdr) hdr).mem) := by
  rw [setTransportChksum6, bind_run (write_run (by exact h))]
  rw [read_bind (by omega), read_bind (by omega), read_bind (by omega), read_bind (by omega)]
  change (inet6ChksumPseudo n hdr (wordsOf (slice (cleared m hdr).mem 22 16))
    (wordsOf (slice (cleared m hdr).mem 38 16)) _ _ >>= _) (cleared m hdr).mem = _
  rw [wordsOf_slice, wordsOf_slice, inet6ChksumPseudo_bind (m := cleared m hdr) hn hnext (by omega)]
  exact write_run (by rw [length_leBytes]; omega)

theorem setTransportChksum6_outside {mem : ℕ → UInt8} (h : n < hdr + 18) :
    setTransportChksum6 n hdr mem = none :=
  bind_none (write_outside (by decide) (by exact h)) _

theorem setHeaderChksum_run (hodd : m.odd = odd) (haddrs : 34 ≤ n) (h : 14 + m.ihl ≤ n) :
    setHeaderChksum n odd m.mem = some ((), (Frames.setHeaderChksum m).mem) := by
  subst hodd
  rw [setHeaderChksum, bind_run (write_run (by exact (by omega : 26 ≤ n))), read_bind (by omega)]
  change (inetChksum n m.odd 14 m.ihl >>= _) (m.write 24 [0, 0]).mem = _
  rw [inetChksum_bind h]
  exact write_run (by rw [length_leBytes]; omega)

theorem setHeaderChksum_outside (haddrs : 34 ≤ n) (h : n < 14 + m.ihl) :
    setHeaderChksum n odd m.mem = none := by
  rw [setHeaderChksum, bind_run (write_run (by exact (by omega : 26 ≤ n))), read_bind (by omega)]
  change (inetChksum n odd 14 m.ihl >>= _) (m.write 24 [0, 0]).mem = _
  exact inetChksum_bind_outside (by omega) h _

end Steps

section Process
variable {ι : Type} {s up : Session ι} {n hdr : ℕ} {odd : Bool} {m : Mbuf}

/-- The length of the IP header when its checksum is computed; the ports may have been written
over it. -/
def newIhl (up : Session ι) (m : Mbuf) (hdr : ℕ) : ℕ :=
  if hdr = 14 then up.localPort.toNat % 16 * 4 else m.ihl

def Room (s up : Session ι) (m : Mbuf) (hdr : ℕ) : Prop :=
  s.ftype = fltLlb ∨ hdr + 18 ≤ m.dataLen ∧ (up.inType = true → 54 ≤ m.dataLen) ∧
    (up.inType = false → 14 + newIhl up m hdr ≤ m.dataLen)

instance (s up : Session ι) (m : Mbuf) (hdr : ℕ) : Decidable (Room s up m hdr) :=
  inferInstanceAs (Decidable (_ ∨ _))

theorem setHardware_shape (s up : Session ι) (m : Mbuf) : (Frames.setHardware s up m).dataLen = m.dataLen ∧
    (Frames.setHardware s up m).odd = m.odd ∧ (Frames.setHardware s up m).next = m.next := by
  unfold Frames.setHardware
  split <;> exact ⟨rfl, rfl, rfl⟩

theorem setEnds_odd : (setEnds s up m hdr).odd = m.odd := by
  unfold setEnds Frames.setHardware
  split <;> split <;> rfl

theorem setPorts_first (m : Mbuf) : (Frames.setPorts up hdr m).mem hdr = UInt8.ofNat up.localPort.toNat := by
  rw [Frames.setPorts, write_mem_outside (by omega)]
  exact Memory.write_inside (k := 0) (by rw [length_leBytes]; omega)

theorem ihl_eq_newIhl (hin : up.inType = false) (h : 14 ≤ hdr) :
    (Frames.setTransportChksum false (setEnds s up m hdr) hdr).ihl = newIhl up m hdr := by
  rw [Mbuf.ihl, setTransportChksum_mem (by omega), newIhl]
  split
  · rename_i hhdr
    subst hhdr
    have hbyte : (setEnds s up m 14).mem 14 = UInt8.ofNat up.localPort.toNat := by
      rw [setEnds, write_mem_outside (by omega), hin, if_neg Bool.false_ne_true, setAddrs4_mem (by omega)]
      exact setPorts_first _
    rw [hbyte, UInt8.toNat_ofNat']
    omega
  · rename_i hhdr
    rw [setEnds_mem (by omega) (by omega) (by unfold AtChksum; omega) (fun _ => by omega) (fun hv6 => ?_)]
    · rfl
    · rw [hin] at hv6
      cases hv6

theorem alProcess_run (s up : Session ι) (hn : m.dataLen = n) (hodd : m.odd = odd) (hnext : m.next = [])
    (haddrs : 34 ≤ n) (h : 14 ≤ hdr) (hports : hdr + 4 ≤ n) :
    alProcess n odd s up hdr m.mem =
      if Room s up m hdr then some ((), (Frames.alProcess s up m hdr).mem) else none := by
  subst hn hodd
  obtain ⟨hlen, hsame, hone⟩ := setHardware_shape s up m
  rw [alProcess, bind_run (setHardware_run (m := m) (by omega))]
  by_cases hllb : s.ftype = fltLlb
  · rw [if_pos hllb, if_pos (.inl hllb), Frames.alProcess, if_pos hllb]
    rfl
  · rw [if_neg hllb, bind_run (setPorts_run (m := Frames.setHardware s up m) hports), alProcess_of_ne hllb]
    cases hin : up.inType with
    | true =>
      have hroom : Room s up m hdr ↔ hdr + 18 ≤ m.dataLen ∧ 54 ≤ m.dataLen := by
        simp [Room, hllb, hin]
      rw [if_pos rfl, if_pos rfl]
      by_cases hv6 : 54 ≤ m.dataLen
      · rw [bind_run (setAddrs6_run (m := Frames.setPorts up hdr (Frames.setHardware s up m)) hv6)]
        by_cases hsum : hdr + 18 ≤ m.dataLen
        · have hends : cleared (Frames.setAddrs6 up (Frames.setPorts up hdr (Frames.setHardware s up m))) hdr =
              setEnds s up m hdr := by
            rw [setEnds, hin, if_pos rfl, cleared]
          rw [if_pos (hroom.mpr ⟨hsum, hv6⟩), ← hends]
          exact setTransportChksum6_run hlen (hone.trans hnext) hsum hv6
        · rw [if_neg fun hand => hsum (hroom.mp hand).1]
          exact setTransportChksum6_outside (by omega)
      · rw [if_neg fun hand => hv6 (hroom.mp hand).2]
        exact bind_none (setAddrs6_outside (by omega)) _
    | false =>
      have hroom : Room s up m hdr ↔ hdr + 18 ≤ m.dataLen ∧ 14 + newIhl up m hdr ≤ m.dataLen := by
        simp [Room, hllb, hin]
      have hends : cleared (Frames.setAddrs4 up (Frames.setPorts up hdr (Frames.setHardware s up m))) hdr =
          setEnds s up m hdr := by
        rw [setEnds, hin, if_neg Bool.false_ne_true, cleared]
      rw [if_neg Bool.false_ne_true, if_neg Bool.false_ne_true,
        bind_run (setAddrs4_run (m := Frames.setPorts up hdr (Frames.setHardware s up m)) haddrs)]
      by_cases hsum : hdr + 18 ≤ m.dataLen
      · have hihl := ihl_eq_newIhl (s := s) (m := m) hin h
        have hrun := setTransportChksum4_run
          (m := Frames.setAddrs4 up (Frames.setPorts up hdr (Frames.setHardware s up m))) hlen hsame
          (hone.trans hnext) hsum haddrs
        rw [bind_run hrun, hends]
        by_cases hheader : 14 + newIhl up m hdr ≤ m.dataLen
        · rw [if_pos (hroom.mpr ⟨hsum, hheader⟩)]
          exact setHeaderChksum_run setEnds_odd haddrs (by rw [hihl]; exact hheader)
        · rw [if_neg fun hand => hheader (hroom.mp hand).2]
          exact setHeaderChksum_outside haddrs (by rw [hihl]; omega)
      · rw [if_neg fun hand => hsum (hroom.mp hand).1]
        exact bind_none (setTransportChksum4_outside (by omega)) _

end Process

section Input
variable {ι : Type} {m : Mbuf} {portid : UInt8} {call : Packet → Option (Session ι × Session ι)}
  {calls : Calls ι}

def processed (m : Mbuf) (hdr : ℕ) : Option (Session ι × Session ι) → Mbuf
  | some (s, up) => Frames.alProcess s up m hdr
  | none => m

/-- What the input functions read is inside the frame, and so is what `al_process` touches. -/
def Covers (call : Packet → Option (Session ι × Session ι)) (pkt : Packet) (m : Mbuf) (addrs hdr : ℕ) : Prop :=
  addrs ≤ m.dataLen ∧ hdr + 4 ≤ m.dataLen ∧ ∀ c ∈ call pkt, Room c.1 c.2 m hdr

instance (call : Packet → Option (Session ι × Session ι)) (pkt : Packet) (m : Mbuf) (addrs hdr : ℕ) :
    Decidable (Covers call pkt m addrs hdr) :=
  inferInstanceAs (Decidable (_ ∧ _ ∧ ∀ c ∈ call pkt, Room c.1 c.2 m hdr))

def Covers6 (calls : Calls ι) (pkt : Packet) (m : Mbuf) : Prop :=
  Mbuf.nextptr6 + 2 ≤ m.dataLen ∧
    (calls.found6 pkt.inputKey = false → Covers calls.ipv6 pkt m 54 Mbuf.nextptr6)

instance (calls : Calls ι) (pkt : Packet) (m : Mbuf) : Decidable (Covers6 calls pkt m) :=
  inferInstanceAs (Decidable (_ ∧ (_ → _)))

def Calls.called6 (calls : Calls ι) (pkt : Packet) : Option (Session ι × Session ι) :=
  if calls.found6 pkt.inputKey then none else calls.ipv6 pkt

variable (hnext : m.next = [])
include hnext

theorem process_run (addrs : ℕ) {hdr : ℕ} (haddrs : 34 ≤ addrs) (hle : addrs ≤ m.dataLen) (h : 14 ≤ hdr)
    (hports : hdr + 4 ≤ m.dataLen) (pkt : Packet) :
    (match call pkt with
      | some (s, up) => alProcess m.dataLen m.odd s up hdr
      | none => pure () : Prog Unit) m.mem =
      if Covers call pkt m addrs hdr then some ((), (processed m hdr (call pkt)).mem) else none := by
  cases hcall : call pkt with
  | none =>
    have hcovers : Covers call pkt m addrs hdr := by
      refine ⟨hle, hports, fun c hc => ?_⟩
      rw [hcall] at hc
      cases hc
    rw [if_pos hcovers]
    rfl
  | some c =>
    have hcovers : Covers call pkt m addrs hdr ↔ Room c.1 c.2 m hdr := by
      rw [Covers, hcall]
      simp [hle, hports]
    have hrun := alProcess_run c.1 c.2 rfl rfl hnext (Nat.le_trans haddrs hle) h hports
    by_cases hroom : Room c.1 c.2 m hdr
    · rw [if_pos (hcovers.mpr hroom)]
      exact hrun.trans (if_pos hroom)
    · rw [if_neg (mt hcovers.mp hroom)]
      exact hrun.trans (if_neg hroom)

theorem alIpv4Input_run :
    alIpv4Input m.dataLen m.odd portid call m.nextptr4 m.mem =
      if Covers call ({ m with port := portid } : Mbuf).packet4 m 34 m.nextptr4 then
        some ((), (processed m m.nextptr4 (call ({ m with port := portid } : Mbuf).packet4)).mem)
      else none := by
  have h14 : 14 ≤ m.nextptr4 := Nat.le_add_right 14 m.ihl
  unfold alIpv4Input
  by_cases haddrs : 34 ≤ m.dataLen
  · by_cases hports : m.nextptr4 + 4 ≤ m.dataLen
    · rw [read_bind (by omega), read_bind (by omega), read_bind (by omega), read_bind (by omega),
        read_bind (by omega), read_bind (by omega), read_bind (by omega)]
      exact process_run hnext 34 (Nat.le_refl 34) haddrs h14 hports
        ({ m with port := portid } : Mbuf).packet4
    · rw [if_neg fun hcovers => hports hcovers.2.1]
      exact read_bind_none (read_bind_none (read_bind_none (read_bind_outside (by omega) (by omega) _)))
  · rw [if_neg fun hcovers => haddrs hcovers.1]
    exact read_bind_none (read_bind_none (read_bind_outside (by omega) (by omega) _))

theorem alIpv6Input_run :
    alIpv6Input m.dataLen m.odd portid calls m.mem =
      if Covers6 calls ({ m with port := portid } : Mbuf).packet6 m then
        some ((), (processed m Mbuf.nextptr6 (calls.called6 ({ m with port := portid } : Mbuf).packet6)).mem)
      else none := by
  have hptr : Mbuf.nextptr6 = 54 := rfl
  unfold alIpv6Input
  by_cases hport : Mbuf.nextptr6 + 2 ≤ m.dataLen
  · rw [read_bind (by omega), read_bind (by omega), read_bind (by omega), read_bind (by omega)]
    change (if calls.found6 ({ m with port := portid } : Mbuf).packet6.inputKey then _ else _ : Prog Unit) m.mem = _
    cases hfound : calls.found6 ({ m with port := portid } : Mbuf).packet6.inputKey with
    | true =>
      have hcovers : Covers6 calls ({ m with port := portid } : Mbuf).packet6 m :=
        ⟨hport, fun h => absurd (hfound.symm.trans h) (by decide)⟩
      rw [if_pos rfl, if_pos hcovers, Calls.called6, hfound]
      rfl
    | false =>
      have hcovers : Covers6 calls ({ m with port := portid } : Mbuf).packet6 m ↔
          Covers calls.ipv6 ({ m with port := portid } : Mbuf).packet6 m 54 Mbuf.nextptr6 :=
        ⟨fun h => h.2 hfound, fun h => ⟨hport, fun _ => h⟩⟩
      rw [if_neg Bool.false_ne_true, Calls.called6, hfound, if_neg Bool.false_ne_true, if_congr hcovers rfl rfl]
      by_cases hports : Mbuf.nextptr6 + 4 ≤ m.dataLen
      · rw [read_bind (by omega), read_bind (by omega), read_bind (by omega)]
        exact process_run hnext 54 (by omega) (by omega) (by omega) hports
          ({ m with port := portid } : Mbuf).packet6
      · rw [if_neg fun h => hports h.2.1]
        exact read_bind_outside (by omega) (by omega) _
  · rw [if_neg fun h => hport h.1]
    exact read_bind_none (read_bind_outside (by omega) (by omega) _)

end Input

section Main
variable {ι : Type} {m : Mbuf} {portid : UInt8} {calls : Calls ι}

structure Enough (m : Mbuf) (portid : UInt8) (calls : Calls ι) : Prop where
  etherType : 14 ≤ m.dataLen
  versionIhl : m.etherType = etherTypeIpv4 → 15 ≤ m.dataLen
  totalLength : m.etherType = etherTypeIpv4 → m.ihl ≤ m.dataLen → 18 ≤ m.dataLen
  nextProtoId : m.etherType = etherTypeIpv4 → m.ihl ≤ m.dataLen → m.totalLength.toNat ≤ m.dataLen →
    24 ≤ m.dataLen
  ipv4 : m.classify = .ipv4 → Covers calls.ipv4 ({ m with port := portid } : Mbuf).packet4 m 34 m.nextptr4
  ipv6 : m.classify = .ipv6 → Covers6 calls ({ m with port := portid } : Mbuf).packet6 m

def after (m : Mbuf) (portid : UInt8) (calls : Calls ι) : Mbuf :=
  match m.classify with
  | .ipv4 => processed m m.nextptr4 (calls.ipv4 ({ m with port := portid } : Mbuf).packet4)
  | .ipv6 => processed m Mbuf.nextptr6 (calls.called6 ({ m with port := portid } : Mbuf).packet6)
  | _ => m

theorem pktLen_single (hnext : m.next = []) : m.pktLen = m.dataLen := by
  rw [Mbuf.pktLen, hnext]
  rfl

theorem after_of_route (h4 : m.classify ≠ .ipv4) (h6 : m.classify ≠ .ipv6) : after m portid calls = m := by
  unfold after
  split
  · rename_i hclass
    exact absurd hclass h4
  · rename_i hclass
    exact absurd hclass h6
  · rfl

def Ended (m : Mbuf) (portid : UInt8) (calls : Calls ι) (run : Option (Route × (ℕ → UInt8))) : Prop :=
  Enough m portid calls ∧ run = some (m.classify, (after m portid calls).mem) ∨
    ¬ Enough m portid calls ∧ run = none

theorem Ended.stop {r : Route} (hclass : m.classify = r) (h4 : r ≠ .ipv4) (h6 : r ≠ .ipv6) (h14 : 14 ≤ m.dataLen)
    (hread : m.etherType = etherTypeIpv4 → 15 ≤ m.dataLen ∧ (m.ihl ≤ m.dataLen → 18 ≤ m.dataLen) ∧
      (m.ihl ≤ m.dataLen → m.totalLength.toNat ≤ m.dataLen → 24 ≤ m.dataLen)) :
    Ended m portid calls (some (r, m.mem)) := by
  subst hclass
  refine .inl ⟨⟨h14, fun h => (hread h).1, fun h => (hread h).2.1, fun h => (hread h).2.2, fun h => absurd h h4,
    fun h => absurd h h6⟩, ?_⟩
  rw [after_of_route h4 h6]

theorem Ended.input {C : Prop} [Decidable C] {x : Prog Unit} {r : Route} {mem : ℕ → UInt8} (hclass : m.classify = r)
    (hrun : x m.mem = if C then some ((), mem) else none) (hafter : (after m portid calls).mem = mem)
    (hiff : Enough m portid calls ↔ C) :
    Ended m portid calls ((x >>= fun _ => pure r) m.mem) := by
  by_cases hC : C
  · rw [if_pos hC] at hrun
    refine .inl ⟨hiff.mpr hC, ?_⟩
    rw [bind_run hrun, hclass, hafter]
    rfl
  · rw [if_neg hC] at hrun
    exact .inr ⟨mt hiff.mp hC, bind_none hrun _⟩

theorem ipv4Frame_run (hnext : m.next = []) (h14 : 14 ≤ m.dataLen) (hv4 : m.etherType = etherTypeIpv4) :
    Ended m portid calls (ipv4Frame m.dataLen m.odd portid calls.ipv4 m.mem) := by
  have hlen := pktLen_single hnext
  unfold ipv4Frame
  by_cases h15 : 15 ≤ m.dataLen
  · rw [read_bind h15]
    change Ended m portid calls ((if m.dataLen < m.ihl then _ else _ : Prog Route) m.mem)
    by_cases hihl : m.dataLen < m.ihl
    · rw [if_pos hihl]
      refine .stop (r := .bad) ?_ (by decide) (by decide) h14 fun _ => ⟨h15, by omega, by omega⟩
      rw [Mbuf.classify, if_pos hv4, hlen, if_pos hihl]
    · rw [if_neg hihl]
      by_cases h18 : 18 ≤ m.dataLen
      · rw [read_bind h18]
        change Ended m portid calls ((if m.dataLen < m.totalLength.toNat then _ else _ : Prog Route) m.mem)
        by_cases htotal : m.dataLen < m.totalLength.toNat
        · rw [if_pos htotal]
          refine .stop (r := .bad) ?_ (by decide) (by decide) h14 fun _ => ⟨h15, fun _ => h18, by omega⟩
          rw [Mbuf.classify, if_pos hv4, hlen, if_neg hihl, if_pos htotal]
        · rw [if_neg htotal]
          by_cases h24 : 24 ≤ m.dataLen
          · rw [read_bind h24]
            change Ended m portid calls
              ((if m.nextProtoId = ipprotoTcp ∨ m.nextProtoId = ipprotoUdp then _ else _ : Prog Route) m.mem)
            by_cases hproto : m.nextProtoId = ipprotoTcp ∨ m.nextProtoId = ipprotoUdp
            · have hclass : m.classify = .ipv4 := by
                rw [Mbuf.classify, if_pos hv4, hlen, if_neg hihl, if_neg htotal, if_pos hproto]
              rw [if_pos hproto]
              refine Ended.input hclass (alIpv4Input_run hnext) ?_ ⟨fun h => h.ipv4 hclass, fun h => ?_⟩
              · unfold after
                rw [hclass]
              · exact ⟨h14, fun _ => h15, fun _ _ => h18, fun _ _ _ => h24, fun _ => h, fun h6 => (by
                  rw [hclass] at h6
                  cases h6)⟩
            · rw [if_neg hproto]
              refine .stop (r := .other) ?_ (by decide) (by decide) h14
                fun _ => ⟨h15, fun _ => h18, fun _ _ => h24⟩
              rw [Mbuf.classify, if_pos hv4, hlen, if_neg hihl, if_neg htotal, if_neg hproto]
          · refine .inr ⟨fun henough => h24 (henough.nextProtoId hv4 (by omega) (by omega)), ?_⟩
            exact read_bind_outside (by omega) (by omega) _
      · refine .inr ⟨fun henough => h18 (henough.totalLength hv4 (by omega)), ?_⟩
        exact read_bind_outside (by omega) (by omega) _
  · refine .inr ⟨fun henough => h15 (henough.versionIhl hv4), ?_⟩
    exact read_bind_outside (by omega) (by omega) _

theorem ipv6Frame_run (hnext : m.next = []) (h14 : 14 ≤ m.dataLen) (hv4 : m.etherType ≠ etherTypeIpv4)
    (hv6 : m.etherType = etherTypeIpv6) :
    Ended m portid calls (ipv6Frame m.dataLen m.odd portid calls m.mem) := by
  have hlen := pktLen_single hnext
  unfold ipv6Frame
  by_cases h40 : m.dataLen < 40
  · rw [if_pos h40]
    refine .stop (r := .bad) ?_ (by decide) (by decide) h14 (absurd · hv4)
    rw [Mbuf.classify, if_neg hv4, if_pos hv6, hlen, if_pos h40]
  · rw [if_neg h40, read_bind (by omega)]
    change Ended m portid calls ((if m.payloadLen.toNat < m.dataLen then _ else _ : Prog Route) m.mem)
    by_cases hpayload : m.payloadLen.toNat < m.dataLen
    · rw [if_pos hpayload]
      refine .stop (r := .bad) ?_ (by decide) (by decide) h14 (absurd · hv4)
      rw [Mbuf.classify, if_neg hv4, if_pos hv6, hlen, if_neg h40, if_pos hpayload]
    · rw [if_neg hpayload, read_bind (by omega)]
      change Ended m portid calls ((if m.proto6 = ipprotoTcp ∨ m.proto6 = ipprotoUdp then _ else
        if m.proto6 = ipprotoIcmpv6 then _ else _ : Prog Route) m.mem)
      by_cases hproto : m.proto6 = ipprotoTcp ∨ m.proto6 = ipprotoUdp
      · have hclass : m.classify = .ipv6 := by
          rw [Mbuf.classify, if_neg hv4, if_pos hv6, hlen, if_neg h40, if_neg hpayload, if_pos hproto]
        rw [if_pos hproto]
        refine Ended.input hclass (alIpv6Input_run hnext) ?_ ⟨fun h => h.ipv6 hclass, fun h => ?_⟩
        · unfold after
          rw [hclass]
        · exact ⟨h14, fun h => absurd h hv4, fun h => absurd h hv4, fun h => absurd h hv4, fun h4 => (by
            rw [hclass] at h4
            cases h4), fun _ => h⟩
      · rw [if_neg hproto]
        split
        · rename_i hicmp
          refine .stop (r := .icmp6) ?_ (by decide) (by decide) h14 (absurd · hv4)
          rw [Mbuf.classify, if_neg hv4, if_pos hv6, hlen, if_neg h40, if_neg hpayload, if_neg hproto,
            if_pos hicmp]
        · rename_i hicmp
          refine .stop (r := .other) ?_ (by decide) (by decide) h14 (absurd · hv4)
          rw [Mbuf.classify, if_neg hv4, if_pos hv6, hlen, if_neg h40, if_neg hpayload, if_neg hproto,
            if_neg hicmp]

/-- A run stays inside a frame of one segment exactly when the frame is long enough, and then
does what the functions on frames say. -/
theorem alMainProcess_run (portid : UInt8) (calls : Calls ι) (hnext : m.next = []) :
    Ended m portid calls (alMainProcess m.dataLen m.odd portid calls m.mem) := by
  unfold alMainProcess
  by_cases h14 : 14 ≤ m.dataLen
  · rw [read_bind h14]
    change Ended m portid calls ((if m.etherType = etherTypeIpv4 then _ else
      if m.etherType = etherTypeIpv6 then _ else if m.etherType = etherTypeArp then _ else _ : Prog Route) m.mem)
    by_cases hv4 : m.etherType = etherTypeIpv4
    · rw [if_pos hv4]
      exact ipv4Frame_run hnext h14 hv4
    · rw [if_neg hv4]
      by_cases hv6 : m.etherType = etherTypeIpv6
      · rw [if_pos hv6]
        exact ipv6Frame_run hnext h14 hv4 hv6
      · rw [if_neg hv6]
        split
        · rename_i harp
          refine .stop (r := .arp) ?_ (by decide) (by decide) h14 (absurd · hv4)
          rw [Mbuf.classify, if_neg hv4, if_neg hv6, if_pos harp]
        · rename_i harp
          refine .stop (r := .other) ?_ (by decide) (by decide) h14 (absurd · hv4)
          rw [Mbuf.classify, if_neg hv4, if_neg hv6, if_neg harp]
  · refine .inr ⟨fun henough => h14 henough.etherType, ?_⟩
    exact read_bind_outside (by omega) (by omega) _

end Main

section Lines
variable {ι : Type} [DecidableEq ι] {s up : Session ι} {m : Mbuf}

def serviced (cfg : Setting) (out : Outside) (fromNic : Bool) (st : Line ι) (pkt : Packet) :
    Option (Session ι × Session ι) :=
  match st.owner fromNic pkt with
  | some _ => none
  | none =>
    match filterSearch out.sys pkt with
    | some (some f) =>
      if f.ftype = fltGslb then none
      else
        match alService out.sys out.stk cfg.lcore f pkt st.shared st.table with
        | some (some (c, _), shared, _) => some (shared.heap c, shared.heap (shared.heap c).up)
        | _ => none
    | _ => none

def called4 (cfg : Setting) (out : Outside) (fromNic : Bool) (st : Line ι) (pkt : Packet) :
    Option (Session ι × Session ι) :=
  match sessionGet st.table st.shared.heap pkt.inputKey with
  | some x => some (st.shared.heap x, st.shared.heap (st.shared.heap x).up)
  | none => serviced cfg out fromNic st pkt

def callsOf (cfg : Setting) (out : Outside) (fromNic : Bool) (st : Line ι) : Calls ι where
  ipv4 := called4 cfg out fromNic st
  found6 k := (sessionGet st.table st.shared.heap k).isSome
  ipv6 := serviced cfg out fromNic st

theorem callsOf_ipv4 (cfg : Setting) (out : Outside) (fromNic : Bool) (st : Line ι) :
    (callsOf cfg out fromNic st).ipv4 = called4 cfg out fromNic st := rfl

section Processed
variable {cfg : Setting} {out : Outside} {fromNic : Bool} {st : Line ι} {buf : ℕ × Mbuf}

theorem miss_processed {pkt : Packet}
    (h : serviced cfg out fromNic st pkt = some (s, up)) (type : UInt8) (hdr : ℕ) :
    ∃ st₀, st.miss cfg out fromNic type buf pkt hdr =
      some (sendToSwitch cfg up.portid [(buf.1, Frames.alProcess s up buf.2 hdr)] false st₀) := by
  unfold serviced at h
  cases howner : st.owner fromNic pkt with
  | some thread =>
    rw [howner] at h
    cases h
  | none =>
    rw [howner] at h
    rcases hsearch : filterSearch out.sys pkt with - | (- | f)
    · rw [hsearch] at h
      cases h
    · rw [hsearch] at h
      cases h
    · simp only [hsearch] at h
      split at h
      · cases h
      · rename_i hgslb
        split at h
        · rename_i c _ shared table hservice
          cases h
          simp only [Line.miss, howner, hsearch, Line.service, if_neg hgslb, hservice]
          exact ⟨_, rfl⟩
        · cases h

theorem alIpv4Input_processed (h : called4 cfg out fromNic st buf.2.packet4 = some (s, up)) (type : UInt8) :
    ∃ st₀, Frames.alIpv4Input cfg out fromNic type st buf =
      some (sendToSwitch cfg up.portid [(buf.1, Frames.alProcess s up buf.2 buf.2.nextptr4)] false st₀) := by
  unfold called4 at h
  cases hget : sessionGet st.table st.shared.heap buf.2.packet4.inputKey with
  | some x =>
    rw [hget] at h
    cases h
    rw [Frames.alIpv4Input, hget]
    exact ⟨_, rfl⟩
  | none =>
    rw [hget] at h
    rw [Frames.alIpv4Input, hget]
    exact miss_processed h type _

theorem alIpv6Input_processed
    (h : (callsOf cfg out fromNic st).called6 buf.2.packet6 = some (s, up)) (type : UInt8) :
    ∃ st₀, Frames.alIpv6Input cfg out fromNic type st buf =
      some (sendToSwitch cfg up.portid [(buf.1, Frames.alProcess s up buf.2 Mbuf.nextptr6)] false st₀) := by
  rw [Calls.called6] at h
  cases hget : sessionGet st.table st.shared.heap buf.2.packet6.inputKey with
  | some x => simp [callsOf, hget] at h
  | none =>
    simp only [callsOf, hget, Option.isSome_none, Bool.false_eq_true, if_false] at h
    rw [Frames.alIpv6Input, hget]
    exact miss_processed h type _

end Processed

structure WellFormed4 (m : Mbuf) : Prop where
  etherType : m.etherType = etherTypeIpv4
  header : 20 ≤ m.ihl
  inside : m.ihl ≤ m.totalLength.toNat
  frame : 14 + m.totalLength.toNat ≤ m.pktLen
  transport : m.nextProtoId = ipprotoTcp ∧ m.ihl + 20 ≤ m.totalLength.toNat ∨
    m.nextProtoId = ipprotoUdp ∧ m.ihl + 8 ≤ m.totalLength.toNat

structure WellFormed6 (m : Mbuf) : Prop where
  etherType : m.etherType = etherTypeIpv6
  frame : 54 + m.payloadLen.toNat ≤ m.pktLen
  transport : m.proto6 = ipprotoTcp ∧ 20 ≤ m.payloadLen.toNat ∨ m.proto6 = ipprotoUdp ∧ 8 ≤ m.payloadLen.toNat

theorem WellFormed4.classify (h : WellFormed4 m) : m.classify = .ipv4 := by
  have hframe := h.frame
  have hinside := h.inside
  have hproto : m.nextProtoId = ipprotoTcp ∨ m.nextProtoId = ipprotoUdp := h.transport.imp And.left And.left
  rw [Mbuf.classify, if_pos h.etherType, if_neg (by omega), if_neg (by omega), if_pos hproto]

theorem WellFormed6.classify (h : WellFormed6 m) : m.classify = .bad := by
  have hframe := h.frame
  rw [Mbuf.classify, if_neg (by rw [h.etherType]; decide), if_pos h.etherType, if_neg (by omega),
    if_pos (by omega)]

def StaysInside (cfg : Setting) (portid : UInt8) (fromNic : Bool) (st : Line ι) (out : Outside) (m : Mbuf) : Prop :=
  (alMainProcess m.dataLen m.odd portid (callsOf cfg out fromNic st) m.mem).isSome =
    true

def HandedOver (m : Mbuf) : Prop :=
  (WellFormed4 m → m.classify = .ipv4) ∧ (WellFormed6 m → m.classify = .ipv6)

theorem staysInside_iff (cfg : Setting) (portid : UInt8) (fromNic : Bool) (st : Line ι) (out : Outside)
    (hnext : m.next = []) : StaysInside cfg portid fromNic st out m ↔
      Enough m portid (callsOf cfg out fromNic st) := by
  rw [StaysInside]
  rcases alMainProcess_run portid (callsOf cfg out fromNic st) hnext with ⟨henough, hrun⟩ | ⟨hshort, hrun⟩
  · rw [hrun]
    exact ⟨fun _ => henough, fun _ => rfl⟩
  · rw [hrun]
    exact ⟨fun hsome => (by cases hsome), fun henough => absurd henough hshort⟩

/-- A frame of one segment is touched inside its bytes only, and handed over as it should be,
exactly when it is long enough and no proper IPv6 frame. -/
theorem frame_touched_inside_iff (cfg : Setting) (portid : UInt8) (fromNic : Bool) (st : Line ι) (out : Outside)
    (hnext : m.next = []) : StaysInside cfg portid fromNic st out m ∧ HandedOver m ↔
      Enough m portid (callsOf cfg out fromNic st) ∧ ¬ WellFormed6 m := by
  rw [staysInside_iff cfg portid fromNic st out hnext]
  refine and_congr_right fun _ => ⟨fun hover h6 => ?_, fun hnot => ⟨WellFormed4.classify, fun h6 => absurd h6 hnot⟩⟩
  have hroute := hover.2 h6
  rw [h6.classify] at hroute
  cases hroute

end Lines

def tcpSession : Session ℕ :=
  ⟨false, false, 6, false, 1, false, 0, 300, 0, ⟨0x0200000a, 0⟩, ⟨0x0100000a, 0⟩, 0x5000, 0xe803, 3, 4, 1, 1⟩

def oneSession : Line ℕ :=
  ⟨⟨⟨[], []⟩, 1, fun _ => tcpSession, []⟩,
    List.replicate (bucketOf tcpFrame.packet4.inputKey + 1) [0], 0, [], []⟩

def lonely : Setting := ⟨0, 1, fun _ => 1, fun _ => 1⟩

def outside : Outside :=
  ⟨addressless, blankStack, ⟨fun _ => false, fun _ => false, fun _ => false⟩⟩

theorem tcpFrame_called :
    called4 lonely outside true oneSession tcpFrame.packet4 = some (tcpSession, tcpSession) := by
  have hget : sessionGet oneSession.table oneSession.shared.heap tcpFrame.packet4.inputKey = some 0 := by
    rw [sessionGet, oneSession, List.getElem?_replicate, if_pos (Nat.lt_succ_self _)]
    decide +kernel
  rw [called4, hget]
  rfl

theorem tcp_frame_touched_inside :
    tcpFrame.next = [] ∧ WellFormed4 tcpFrame ∧ StaysInside lonely 0 true oneSession outside tcpFrame ∧
      HandedOver tcpFrame := by
  have h4 : WellFormed4 tcpFrame := ⟨by decide +kernel, by decide +kernel, by decide +kernel, by decide +kernel,
    by decide +kernel⟩
  refine ⟨rfl, h4, (frame_touched_inside_iff lonely 0 true oneSession outside rfl).mpr
    ⟨⟨by decide, ?_, ?_, ?_, ?_, ?_⟩, ?_⟩⟩
  · exact fun _ => by decide
  · exact fun _ _ => by decide
  · exact fun _ _ _ => by decide
  · intro _
    refine ⟨by decide, by decide +kernel, fun c hc => ?_⟩
    have hcalled := tcpFrame_called
    rw [callsOf_ipv4] at hc
    change called4 lonely outside true oneSession tcpFrame.packet4 = some c at hc
    rw [hcalled] at hc
    cases hc
    decide +kernel
  · intro h6
    rw [h4.classify] at h6
    cases h6
  · intro h6
    have hroute := h6.classify
    rw [h4.classify] at hroute
    cases hroute

def bareFrame : Mbuf := single [1, 1, 1, 1, 1, 1, 2, 2, 2, 2, 2, 2, 8, 0] (by decide)

theorem bare_frame_overrun :
    bareFrame.next = [] ∧ ¬ (StaysInside lonely 0 true oneSession outside bareFrame ∧ HandedOver bareFrame) := by
  refine ⟨rfl, fun h => ?_⟩
  have henough := (staysInside_iff lonely 0 true oneSession outside rfl).mp h.1
  exact absurd (henough.versionIhl (by decide +kernel)) (by decide)

end Aware.Frames.Bounds
