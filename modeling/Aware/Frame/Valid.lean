import Aware.Frame.Process

/-!
# Checksums of a rewritten frame

The transport checksum of `al_process` is taken over all data behind the IP header. It is that of
the segment when the bytes behind the segment come to nothing.
-/
namespace Aware.Frames
open Aware.Memory Aware.OnesSum Aware.Sessions

namespace Mbuf

def linear (m : Mbuf) : Mbuf := { m with mem := fun i => m.bytes.getD i 0 }

/-- A TCP packet over IPv4 in any segments. Bytes of the link layer may follow. -/
structure Tcp4 (m : Mbuf) : Prop where
  proto : m.linear.nextProtoId = ipprotoTcp
  ihl : 20 ≤ m.linear.ihl
  room : m.linear.ihl + 20 ≤ m.linear.totalLength.toNat
  whole : 14 + m.linear.totalLength.toNat ≤ m.pktLen

def ipHeader (m : Mbuf) : List UInt8 := slice m.mem 14 m.ihl

def segmentLen (m : Mbuf) : UInt16 := m.totalLength - UInt16.ofNat m.ihl

def segment (m : Mbuf) : List UInt8 := (m.bytes.drop m.nextptr4).take m.segmentLen.toNat

def padding (m : Mbuf) : List UInt8 := m.bytes.drop (14 + m.totalLength.toNat)

def pseudo (m : Mbuf) : List UInt8 :=
  pseudoHeader (UInt32.ofNat (field m.mem 26 4)) (UInt32.ofNat (field m.mem 30 4)) m.nextProtoId
    m.segmentLen

def ChecksumsValid (m : Mbuf) : Prop :=
  Verifies m.linear.ipHeader ∧ Verifies (m.linear.pseudo ++ m.linear.segment)

instance (m : Mbuf) : Decidable m.ChecksumsValid :=
  inferInstanceAs (Decidable (_ ∧ _))

theorem linear_mem {m : Mbuf} {i : ℕ} (h : i < m.dataLen) : m.linear.mem i = m.mem i := by
  have hlen : i < (slice m.mem 0 m.dataLen).length := by rwa [length_slice]
  change m.bytes.getD i 0 = _
  rw [bytes, List.getD_eq_getElem?_getD, List.getElem?_append_left hlen, List.getElem?_eq_getElem hlen]
  simp [slice]

theorem linear_bytes (m : Mbuf) : m.linear.bytes = m.bytes := by
  have hfirst : slice m.linear.mem 0 m.dataLen = slice m.mem 0 m.dataLen :=
    slice_congr fun i _ hlt => linear_mem (by omega)
  rw [bytes, bytes, ← hfirst]
  rfl

end Mbuf

theorem value_slice_write {mem : ℕ → UInt8} {a j n : ℕ} (x : UInt16) (hj : 2 * j + 2 ≤ n)
    (hzero : slice mem (a + 2 * j) 2 = [0, 0]) :
    value (slice (write mem (a + 2 * j) (leBytes 2 x.toNat)) a n) =
      value (slice mem a n) + (x.toNat : ℕ) := by
  obtain ⟨r, rfl⟩ := Nat.exists_eq_add_of_le hj
  have hlen : (leBytes 2 x.toNat).length = 2 := length_leBytes 2 _
  have hself : slice (write mem (a + 2 * j) (leBytes 2 x.toNat)) (a + 2 * j) 2 =
      leBytes 2 x.toNat := slice_write
  have hcut : ∀ m : ℕ → UInt8, value (slice m a (2 * j + 2 + r)) =
      value (slice m a (2 * j)) + value (slice m (a + 2 * j) 2) +
        value (slice m (a + (2 * j + 2)) r) := by
    intro m
    rw [slice_add, slice_add, value_append_even (by simp), value_append_even (by simp)]
  rw [hcut, hcut, hself, hzero, value_leBytes x.toNat_lt,
    slice_write_outside (.inl (Nat.le_refl _)), slice_write_outside (.inr (by omega))]
  simp only [value_cons, value_nil, UInt8.toNat_zero, Nat.cast_zero, mul_zero, add_zero]
  ring

section Valid
variable {ι : Type} {s up : Session ι} {m : Mbuf}

theorem drop_bytes (m : Mbuf) (k : ℕ) :
    m.bytes.drop k = slice m.mem k (m.dataLen - k) ++ ((m.next.map Seg.data).flatten).drop (k - m.dataLen) := by
  rw [Mbuf.bytes, List.drop_append, drop_slice, length_slice, Nat.zero_add]

theorem drop_bytes_of_le {k : ℕ} (h : k ≤ m.dataLen) :
    m.bytes.drop k = slice m.mem k (m.dataLen - k) ++ (m.next.map Seg.data).flatten := by
  rw [drop_bytes, Nat.sub_eq_zero_of_le h, List.drop_zero]

theorem drop_bytes_congr {m' : Mbuf} {k : ℕ} (hlen : m'.dataLen = m.dataLen) (hnext : m'.next = m.next)
    (h : ∀ i, k ≤ i → m'.mem i = m.mem i) : m'.bytes.drop k = m.bytes.drop k := by
  rw [drop_bytes, drop_bytes, hlen, hnext, slice_congr fun i hle _ => h i hle]

theorem leNat_ne_zero {bs : List UInt8} {b : UInt8} (hb : b ∈ bs) (h : b ≠ 0) : leNat bs ≠ 0 :=
  fun hzero => h (leNat_eq_zero.mp hzero b hb)

theorem ihl_lt (m : Mbuf) : m.ihl < 64 := by
  unfold Mbuf.ihl
  omega

theorem setHeaderChksum_verifies (h : 20 ≤ m.ihl) : Verifies (setHeaderChksum m).ipHeader := by
  have hlt := ihl_lt m
  have hihl : (setHeaderChksum m).ihl = m.ihl := by
    rw [Mbuf.ihl, setHeaderChksum_mem (by omega)]
    rfl
  have hcleared : (m.write 24 [0, 0]).ihl = m.ihl := by
    rw [Mbuf.ihl, write_mem_outside (by omega)]
    rfl
  have hzero : slice (m.write 24 [0, 0]).mem (14 + 2 * 5) 2 = [0, 0] := slice_write (m := m.mem)
  have hword := value_slice_write (inetChksum m.odd (slice (m.write 24 [0, 0]).mem 14 m.ihl))
    (n := m.ihl) (by omega) hzero
  rw [residue_inetChksum _ (by rw [length_slice]; omega), add_neg_cancel] at hword
  have hheader : (setHeaderChksum m).ipHeader = slice (setHeaderChksum m).mem 14 m.ihl := by
    rw [Mbuf.ipHeader, hihl]
  rw [verifies_iff, hheader]
  constructor
  · have hversion : (setHeaderChksum m).mem 14 ≠ 0 := by
      rw [setHeaderChksum_mem (by omega)]
      intro hzero
      rw [Mbuf.ihl, hzero] at h
      exact absurd h (by decide)
    refine leNat_ne_zero (List.mem_map_of_mem ?_) hversion
    rw [List.mem_range'_1]
    omega
  · rw [setHeaderChksum, hcleared]
    exact hword

def Mbuf.tail (m : Mbuf) : List UInt8 := m.bytes.drop m.nextptr4

theorem tail_eq (h : m.nextptr4 ≤ m.dataLen) :
    m.tail = slice m.mem m.nextptr4 (m.dataLen - m.nextptr4) ++ (m.next.map Seg.data).flatten :=
  drop_bytes_of_le h

structure SameHeader (m m' : Mbuf) : Prop where
  ihl : m'.ihl = m.ihl
  totalLength : m'.totalLength = m.totalLength
  nextProtoId : m'.nextProtoId = m.nextProtoId
  nextptr4 : m'.nextptr4 = m.nextptr4

theorem SameHeader.of_mem {m' : Mbuf} (h : ∀ i, 14 ≤ i → i < 24 → m'.mem i = m.mem i) : SameHeader m m' := by
  have hihl : m'.ihl = m.ihl := by
    rw [Mbuf.ihl, Mbuf.ihl, h 14 (by omega) (by omega)]
  refine ⟨hihl, ?_, ?_, ?_⟩
  · rw [Mbuf.totalLength, Mbuf.totalLength, field16, field16, field, field,
      slice_congr fun i hle hlt => h i (by omega) (by omega)]
  · exact h 23 (by omega) (by omega)
  · rw [Mbuf.nextptr4, Mbuf.nextptr4, hihl]

theorem SameHeader.trans {m' m'' : Mbuf} (h : SameHeader m m') (h' : SameHeader m' m'') :
    SameHeader m m'' :=
  ⟨h'.ihl.trans h.ihl, h'.totalLength.trans h.totalLength, h'.nextProtoId.trans h.nextProtoId,
    h'.nextptr4.trans h.nextptr4⟩

theorem SameHeader.pseudo {m' : Mbuf} (h : SameHeader m m')
    (haddrs : ∀ i, 26 ≤ i → i < 34 → m'.mem i = m.mem i) : m'.pseudo = m.pseudo := by
  rw [Mbuf.pseudo, Mbuf.pseudo, Mbuf.segmentLen, Mbuf.segmentLen, h.ihl, h.totalLength, h.nextProtoId,
    field, field, field, field, slice_congr fun i hle hlt => haddrs i (by omega) (by omega),
    slice_congr fun i hle hlt => haddrs i (by omega) (by omega)]

theorem setTransportChksum_tail (h : m.nextptr4 + 18 ≤ m.dataLen)
    (hzero : slice m.mem (m.nextptr4 + 2 * 8) 2 = [0, 0]) :
    value (setTransportChksum false m m.nextptr4).tail = -value m.pseudo := by
  have hsame : SameHeader m (setTransportChksum false m m.nextptr4) := by
    refine .of_mem fun i hle hlt => setTransportChksum_mem (.inl ?_)
    rw [Mbuf.nextptr4]
    omega
  have hsum := residue_inetChksumPseudo m (Nat.le_trans (Nat.le_add_right _ 18) h)
    (UInt32.ofNat (field m.mem 26 4)) (UInt32.ofNat (field m.mem 30 4)) m.nextProtoId m.segmentLen
  have hword := value_slice_write (transportChksum false m m.nextptr4)
    (n := m.dataLen - m.nextptr4) (by omega) hzero
  rw [tail_eq (by rw [hsame.nextptr4]; exact Nat.le_trans (Nat.le_add_right _ 18) h), hsame.nextptr4,
    value_append, length_slice]
  change value (slice (write m.mem (m.nextptr4 + 2 * 8) _) m.nextptr4 (m.dataLen - m.nextptr4)) +
    256 ^ (m.dataLen - m.nextptr4) * value (m.next.map Seg.data).flatten = _
  rw [hword]
  change _ + (((inetChksumPseudo m m.nextptr4 (UInt32.ofNat (field m.mem 26 4))
    (UInt32.ofNat (field m.mem 30 4)) m.nextProtoId m.segmentLen).toNat : ℕ) : ZMod 65535) + _ = _
  rw [hsum, value_append, length_slice]
  change _ + -(value m.pseudo + _) + _ = _
  ring

theorem segmentLen_toNat (h : m.ihl ≤ m.totalLength.toNat) :
    m.segmentLen.toNat = m.totalLength.toNat - m.ihl := by
  have hlt := ihl_lt m
  have hihl : (UInt16.ofNat m.ihl).toNat = m.ihl := by
    rw [UInt16.toNat_ofNat']
    exact Nat.mod_eq_of_lt (by omega)
  rw [Mbuf.segmentLen, UInt16.toNat_sub_of_le _ _ (UInt16.le_iff_toNat_le.mpr (by rwa [hihl])), hihl]

theorem segment_append_padding (h : m.ihl ≤ m.totalLength.toNat) : m.segment ++ m.padding = m.tail := by
  have hsplit : 14 + m.totalLength.toNat = m.nextptr4 + m.segmentLen.toNat := by
    rw [segmentLen_toNat h, Mbuf.nextptr4]
    omega
  rw [Mbuf.segment, Mbuf.padding, hsplit, ← List.drop_drop]
  exact List.take_append_drop _ _

theorem segment_verifies_iff (htcp : m.nextProtoId = ipprotoTcp) (hihl : m.ihl ≤ m.totalLength.toNat)
    (htail : value m.tail = -value m.pseudo) :
    Verifies (m.pseudo ++ m.segment) ↔ value m.padding = 0 := by
  have hproto : ipprotoTcp ∈ m.pseudo ++ m.segment := by
    rw [Mbuf.pseudo, pseudoHeader, htcp]
    simp
  have hvalue : value (m.pseudo ++ m.segment) = -(256 ^ m.segment.length * value m.padding) := by
    rw [← segment_append_padding hihl, value_append] at htail
    rw [value_append_even (by simp [Mbuf.pseudo, pseudoHeader])]
    linear_combination htail
  rw [verifies_iff, and_iff_right (leNat_ne_zero hproto (by decide)), hvalue, neg_eq_zero]
  constructor
  · intro hzero
    linear_combination 256 ^ m.segment.length * hzero -
      value m.padding * shift_pow_shift_pow m.segment.length
  · intro hzero
    rw [hzero, mul_zero]

theorem sameHeader_linear (h : 24 ≤ m.dataLen) : SameHeader m m.linear :=
  .of_mem fun i _ hlt => Mbuf.linear_mem (by omega)

theorem ipHeader_linear (h : 24 ≤ m.dataLen) (hihl : m.nextptr4 ≤ m.dataLen) :
    m.linear.ipHeader = m.ipHeader := by
  rw [Mbuf.nextptr4] at hihl
  rw [Mbuf.ipHeader, Mbuf.ipHeader, (sameHeader_linear h).ihl]
  exact slice_congr fun i _ hlt => Mbuf.linear_mem (by omega)

theorem segment_linear (h : 34 ≤ m.dataLen) :
    m.linear.pseudo ++ m.linear.segment = m.pseudo ++ m.segment := by
  have hsame := sameHeader_linear (m := m) (by omega)
  rw [hsame.pseudo fun i _ hlt => Mbuf.linear_mem (by omega), Mbuf.segment, Mbuf.segment, Mbuf.segmentLen,
    Mbuf.segmentLen, hsame.ihl, hsame.totalLength, hsame.nextptr4, Mbuf.linear_bytes]

def transported (s up : Session ι) (m : Mbuf) : Mbuf :=
  setTransportChksum false (setEnds s up m m.nextptr4) m.nextptr4

/-- In a chain that is split before the end of a checksum, the checksum that the packet has
happens to be right for the new ends. -/
def SplitRight (s up : Session ι) (m : Mbuf) : Prop :=
  (m.dataLen < m.linear.nextptr4 → Verifies (setHeaderChksum (transported s up m)).linear.ipHeader) ∧
    Verifies ((setHeaderChksum (transported s up m)).linear.pseudo ++
      (setHeaderChksum (transported s up m)).linear.segment)

instance (s up : Session ι) (m : Mbuf) : Decidable (SplitRight s up m) :=
  inferInstanceAs (Decidable ((_ → _) ∧ _))

section Rewritten
variable (hllb : s.ftype ≠ fltLlb) (hin : up.inType = false)

include hin in
theorem setEnds_mem4 {i : ℕ} (hi : 12 ≤ i) (haddrs : i < 26 ∨ 34 ≤ i)
    (hout : i < m.nextptr4 ∨ m.nextptr4 + 18 ≤ i) : (setEnds s up m m.nextptr4).mem i = m.mem i := by
  refine setEnds_mem hi (by omega) ?_ (fun _ => haddrs) ?_
  · rw [AtChksum]
    omega
  · rw [hin]
    exact fun hv6 => absurd hv6 Bool.false_ne_true

include hin in
theorem sameHeader_setEnds (hihl : 20 ≤ m.ihl) : SameHeader m (setEnds s up m m.nextptr4) := by
  refine .of_mem fun i hle hlt => setEnds_mem4 hin (by omega) (by omega) (.inl ?_)
  rw [Mbuf.nextptr4]
  omega

include hin in
theorem sameHeader_transported (hihl : 20 ≤ m.ihl) : SameHeader m (transported s up m) := by
  refine (sameHeader_setEnds hin hihl).trans (.of_mem fun i hle hlt => setTransportChksum_mem (.inl ?_))
  rw [Mbuf.nextptr4]
  omega

include hllb hin in
theorem alProcess_eq : alProcess s up m m.nextptr4 = setHeaderChksum (transported s up m) := by
  rw [alProcess_of_ne hllb, hin]
  exact if_neg Bool.false_ne_true

include hin in
theorem rewritten_valid_iff (htcp : m.nextProtoId = ipprotoTcp) (hihl : 20 ≤ m.ihl)
    (hroom : m.ihl + 20 ≤ m.totalLength.toNat) (h : m.nextptr4 + 18 ≤ m.dataLen) :
    (setHeaderChksum (transported s up m)).ChecksumsValid ↔ value m.padding = 0 := by
  have hhdr : m.nextptr4 = 14 + m.ihl := rfl
  -- the frame before the transport checksum, with it, and with both checksums
  let e := setEnds s up m m.nextptr4
  let t := transported s up m
  let r := setHeaderChksum t
  obtain ⟨hlen, hnext⟩ : e.dataLen = m.dataLen ∧ e.next = m.next := setEnds_shape
  have htransport : ∀ i, i < m.nextptr4 + 16 ∨ m.nextptr4 + 18 ≤ i → t.mem i = e.mem i := fun i hi =>
    setTransportChksum_mem hi
  have hheader : ∀ i, i < 24 ∨ 26 ≤ i → r.mem i = t.mem i := fun i hi => setHeaderChksum_mem hi
  have hme : SameHeader m e := sameHeader_setEnds hin hihl
  have hmt : SameHeader m t := sameHeader_transported hin hihl
  have hmr : SameHeader m r := hmt.trans (.of_mem fun i hle hlt => hheader i (by omega))
  have her : SameHeader e r := .of_mem fun i hle hlt => by
    rw [hheader i (by omega), htransport i (by omega)]
  have htail : value r.tail = -value r.pseudo := by
    have hzero : slice e.mem (e.nextptr4 + 2 * 8) 2 = [0, 0] := by
      rw [hme.nextptr4]
      exact slice_write
    have hsum := setTransportChksum_tail (by rw [hme.nextptr4, hlen]; omega) hzero
    rw [hme.nextptr4] at hsum
    have hbytes : r.tail = t.tail := by
      rw [Mbuf.tail, Mbuf.tail, hmr.nextptr4, hmt.nextptr4]
      exact drop_bytes_congr rfl rfl fun i hle => hheader i (by omega)
    have hpseudo : r.pseudo = e.pseudo := her.pseudo fun i hle hlt => by
      rw [hheader i (by omega), htransport i (by omega)]
    rw [hbytes, hpseudo]
    exact hsum
  have hpadding : r.padding = m.padding := by
    rw [Mbuf.padding, Mbuf.padding, hmr.totalLength]
    refine drop_bytes_congr hlen hnext fun i hle => ?_
    rw [hheader i (by omega), htransport i (by omega), setEnds_mem4 hin (by omega) (by omega) (by omega)]
  have hlong : m.nextptr4 + 18 ≤ r.dataLen := hlen ▸ h
  rw [Mbuf.ChecksumsValid, ipHeader_linear (m := r) (by omega) (by rw [hmr.nextptr4]; omega),
    segment_linear (m := r) (by omega), segment_verifies_iff (hmr.nextProtoId.trans htcp) (by
      rw [hmr.ihl, hmr.totalLength]
      omega) htail, hpadding]
  exact and_iff_right (setHeaderChksum_verifies (by rw [hmt.ihl]; exact hihl))

end Rewritten

end Valid

def paddedFrame (fill : UInt8) : Mbuf :=
  single (headers 6 40 ++ [0, 0, 0, 1, 0, 0, 0, 0, 0x50, 2, 0, 0, 0, 0, 0, 0] ++ List.replicate 6 fill)
    (by simp [headers])

end Aware.Frames
