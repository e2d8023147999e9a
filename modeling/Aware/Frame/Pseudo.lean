import Aware.Frame.Valid

/-!
# The checksums as 16-bit numbers

Modulo 65535 zero and 65535 are the same number, and a checksum has to tell them apart. What a sum
stands for and whether all its bytes are zero determine it.
-/
namespace Aware.Frames
open Aware.Memory Aware.OnesSum Aware.Sessions

theorem foldU32t_eq_zero {u : UInt32} : (foldU32t u).toNat = 0 ↔ u.toNat = 0 := by
  rw [foldU32t_toNat]
  omega

theorem sumWords_eq_zero (bs : List UInt8) (sum : UInt32) (h : sum.toNat + 65535 * bs.length < 4294967296) :
    (sumWords bs sum).1.toNat + (sumWords bs sum).2.toNat = 0 ↔ sum.toNat + leNat bs = 0 := by
  induction bs, sum using sumWords.induct with
  | case1 b c bs sum ih =>
    have hb := b.toNat_lt
    have hc := c.toNat_lt
    have hword := word_toNat b c
    rw [List.length_cons, List.length_cons] at h
    have hadd := toNat_add_of_lt (u := sum) (v := word b c) (by omega)
    rw [sumWords, ih (by omega), leNat, leNat, hadd, hword]
    omega
  | case2 b sum =>
    rw [sumWords, leNat, leNat, Nat.mul_zero, Nat.add_zero]
  | case3 sum => rfl

theorem alignHead_eq_zero (odd : Bool) (data : List UInt8) :
    leNat (alignHead odd data).2 + (alignHead odd data).1.toNat = 0 ↔ leNat data = 0 := by
  cases odd with
  | false => rfl
  | true =>
    cases data with
    | nil => rfl
    | cons b bs =>
      change leNat bs + b.toNat = 0 ↔ b.toNat + 256 * leNat bs = 0
      omega

theorem alignedSum_eq_zero (high : UInt8) {rest : List UInt8} (h : rest.length < 65536) :
    (alignedSum high rest).toNat = 0 ↔ leNat rest + high.toNat = 0 := by
  have hbound : (0 : UInt32).toNat + 65535 * rest.length < 4294967296 := by
    rw [UInt32.toNat_zero]
    omega
  have hle := (sumWords_spec rest 0 hbound).1
  have hzero := sumWords_eq_zero rest 0 hbound
  rw [UInt32.toNat_zero] at hle hzero
  have hword := word_toNat (sumWords rest 0).2 high
  have hlow := (sumWords rest 0).2.toNat_lt
  have hhigh := high.toNat_lt
  have hadd := toNat_add_of_lt (u := (sumWords rest 0).1) (v := word (sumWords rest 0).2 high) (by omega)
  rw [alignedSum, foldU32t_eq_zero, foldU32t_eq_zero, hadd]
  omega

variable {data bs : List UInt8} {st : UInt32 × Bool}

theorem lwipStandardChksum_eq_zero (odd : Bool) (h : data.length < 65536) :
    (lwipStandardChksum odd data).toNat = 0 ↔ leNat data = 0 := by
  have hlen := ((alignHead_spec odd data).1).trans_lt h
  have hlt := (residue_alignedSum (alignHead odd data).1 hlen).1
  rw [← alignHead_eq_zero odd data, ← alignedSum_eq_zero _ hlen, lwipStandardChksum, UInt32.toNat_toUInt16]
  cases odd with
  | false => rw [if_neg Bool.false_ne_true, Nat.mod_eq_of_lt hlt]
  | true =>
    rw [if_pos rfl, Nat.mod_eq_of_lt (swapBytesInWord_lt _), swapBytesInWord_toNat hlt]
    omega

structure SummedUp (st : UInt32 × Bool) (bs : List UInt8) : Prop extends Summed st bs where
  zero : st.1.toNat = 0 ↔ leNat bs = 0

theorem SummedUp.start : SummedUp (0, false) [] :=
  ⟨⟨by decide, rfl, by simp [residue]⟩, by decide⟩

theorem SummedUp.append {acc : UInt32} (h : SummedUp st bs)
    (hlt : acc.toNat < 65536) (hsum : residue acc = residue st.1 + value data)
    (hzero : acc.toNat = 0 ↔ st.1.toNat = 0 ∧ leNat data = 0) :
    SummedUp (if data.length % 2 == 1 then (swapBytesInWord acc, !st.2) else (acc, st.2))
      (bs ++ data) := by
  refine ⟨h.toSummed.append hlt hsum, ?_⟩
  rw [leNat_append_eq_zero, ← h.zero, ← hzero]
  split
  · rw [swapBytesInWord_toNat hlt]
    omega
  · rfl

theorem SummedUp.addSegment (h : SummedUp st bs) (odd : Bool) (hdata : data.length < 65536) :
    SummedUp (addSegment st odd (data.length % 2 == 1) data) (bs ++ data) := by
  obtain ⟨hlt, hsum⟩ := add_lwipStandardChksum st odd h.lt hdata
  have hst := h.lt
  have hnat : (lwipStandardChksum odd data).toUInt32.toNat = (lwipStandardChksum odd data).toNat :=
    UInt16.toNat_toUInt32 _
  have hword := (lwipStandardChksum odd data).toNat_lt
  have hadd := toNat_add_of_lt (u := st.1) (v := (lwipStandardChksum odd data).toUInt32) (by omega)
  apply h.append hlt hsum
  rw [foldU32t_eq_zero, hadd, hnat, Nat.add_eq_zero_iff, lwipStandardChksum_eq_zero odd hdata]

theorem SummedUp.addSegments (h : SummedUp st bs)
    (next : List Seg) : SummedUp (addSegments st next) (bs ++ (next.map Seg.data).flatten) := by
  induction next generalizing st bs with
  | nil =>
    rw [List.map_nil, List.flatten_nil, List.append_nil]
    exact h
  | cons s next ih =>
    rw [List.map_cons, List.flatten_cons, ← List.append_assoc]
    exact ih (h.addSegment s.odd s.size)

theorem SummedUp.turned_eq_zero (h : SummedUp st bs) :
    (if st.2 then swapBytesInWord st.1 else st.1).toNat = 0 ↔ leNat bs = 0 := by
  rw [← h.zero]
  split
  · rw [swapBytesInWord_toNat h.lt]
    omega
  · rfl

theorem addPseudo_eq_zero {acc : UInt32} (h : acc.toNat < 65536) (src dest : UInt32) (proto : UInt8)
    (protoLen : UInt16) :
    (addPseudo acc src dest proto protoLen).toNat = 0 ↔
      acc.toNat = 0 ∧ leNat (pseudoHeader src dest proto protoLen) = 0 := by
  have hnat := addPseudo_toNat h src dest proto protoLen
  have h1 := low_toNat src
  have h2 := high_toNat src
  have h3 := low_toNat dest
  have h4 := high_toNat dest
  have hproto : leNat [0, proto] = 256 * proto.toNat := by
    rw [leNat, leNat, leNat, UInt8.toNat_zero]
    omega
  rw [pseudoHeader, leNat_append_eq_zero, leNat_append_eq_zero, leNat_append_eq_zero, hproto,
    leNat_leBytes_eq_zero src.toNat_lt, leNat_leBytes_eq_zero dest.toNat_lt,
    leNat_leBytes_eq_zero (htons protoLen).toNat_lt, hnat]
  omega

theorem not_fold_checksum_iff (u : UInt32) (bs : List UInt8) :
    (htons (~~~ (foldU32t (foldU32t u)).toUInt16)).toNat = checksum bs ↔
      residue u = value bs ∧ (u.toNat = 0 ↔ leNat bs = 0) := by
  have hlt := foldU32t_twice_lt u
  have hsum : onesSum (beWords bs) < 65536 := (foldl_onesAdd (beWords_lt bs) (Nat.zero_lt_succ 65535)).1
  have hiff := onesSum_beWords_iff bs hlt
  have hres : (((foldU32t (foldU32t u)).toNat : ℕ) : ZMod 65535) = residue u := by
    rw [← residue_foldU32t u, ← residue_foldU32t (foldU32t u)]
    rfl
  rw [hres, foldU32t_eq_zero, foldU32t_eq_zero] at hiff
  rw [← hiff, htons_toNat, not_toNat, UInt32.toNat_toUInt16, Nat.mod_eq_of_lt hlt, checksum]
  omega

/-- `inet_chksum_pseudo` returns the checksum in network order. -/
theorem inetChksumPseudo_checksum (m : Mbuf) (boff : ℕ) (h : boff ≤ m.dataLen) (src dest : UInt32)
    (proto : UInt8) (protoLen : UInt16) :
    (htons (inetChksumPseudo m boff src dest proto protoLen)).toNat =
      checksum (pseudoHeader src dest proto protoLen ++ m.bytes.drop boff) := by
  have hsize := m.size
  have hparity : ((m.dataLen + boff) % 2 == 1) = ((slice m.mem boff (m.dataLen - boff)).length % 2 == 1) := by
    rw [length_slice]
    congr 1
    omega
  have hshort : (slice m.mem boff (m.dataLen - boff)).length < 65536 := by
    rw [length_slice]
    omega
  have hsummed := (SummedUp.start.addSegment (m.odd != (boff % 2 == 1)) hshort).addSegments m.next
  rw [List.nil_append, ← drop_bytes_of_le h, ← hparity] at hsummed
  obtain ⟨hlt, hsum⟩ := hsummed.turned
  have heven : (pseudoHeader src dest proto protoLen).length % 2 = 0 := by simp [pseudoHeader]
  rw [inetChksumPseudo, not_fold_checksum_iff, addPseudo_spec hlt, hsum, addPseudo_eq_zero hlt,
    hsummed.turned_eq_zero, value_append_even heven, leNat_append_eq_zero]
  exact ⟨add_comm _ _, and_comm⟩

def splitFrame : Mbuf :=
  { single [9, 1, 2, 3, 4] (by decide) with
    odd := true
    next := [⟨false, [], by decide⟩, ⟨true, [5, 6, 7], by decide⟩] }

theorem split_checksum : 1 ≤ splitFrame.dataLen ∧
    (htons (inetChksumPseudo splitFrame 1 0x0100000a 0x0200000a 6 7)).toNat =
      checksum (pseudoHeader 0x0100000a 0x0200000a 6 7 ++ [1, 2, 3, 4, 5, 6, 7]) :=
  ⟨by decide, inetChksumPseudo_checksum splitFrame 1 (by decide) _ _ _ _⟩

end Aware.Frames
