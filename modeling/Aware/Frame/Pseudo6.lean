import Aware.Frame.Pseudo

/-!
# The checksum of an IPv6 packet

`inet6_chksum_pseudo` takes the first byte of an odd piece for its last one, and it adds the length
that `al_process` has cut by the size of the IPv6 header, in the order of the host.
-/
namespace Aware.Frames
open Aware.Memory Aware.OnesSum Aware.Sessions

def taken (data : List UInt8) : List UInt8 :=
  if data.length % 2 = 1 then data.dropLast ++ [data.headD 0] else data

theorem length_taken (data : List UInt8) : (taken data).length = data.length := by
  unfold taken
  split
  · rw [List.length_append, List.length_dropLast, List.length_singleton]
    omega
  · rfl

theorem sumWords_even {bs : List UInt8} (h : bs.length % 2 = 0) (sum : UInt32) : (sumWords bs sum).2 = 0 := by
  induction bs, sum using sumWords.induct with
  | case1 b c bs sum ih =>
    rw [List.length_cons, List.length_cons] at h
    exact ih (by omega)
  | case2 b sum => exact absurd h (by rw [List.length_singleton]; decide)
  | case3 sum => rfl

theorem sumWords_concat {bs : List UInt8} (h : bs.length % 2 = 0) (b : UInt8) (sum : UInt32) :
    sumWords (bs ++ [b]) sum = ((sumWords bs sum).1, b) := by
  induction bs, sum using sumWords.induct with
  | case1 c d bs sum ih =>
    rw [List.length_cons, List.length_cons] at h
    exact ih (by omega)
  | case2 c sum => exact absurd h (by rw [List.length_singleton]; decide)
  | case3 sum => rfl

theorem chksum_eq (data : List UInt8) :
    chksum data = (sumWords (taken data) 0).1 + (sumWords (taken data) 0).2.toUInt32 := by
  unfold chksum taken
  split
  · rename_i hodd
    obtain ⟨bs, b, rfl⟩ : ∃ bs b, data = bs ++ [b] := by
      refine ⟨data.dropLast, data.getLast ?_, (List.dropLast_append_getLast _).symm⟩
      intro hnil
      rw [hnil] at hodd
      exact absurd hodd (by decide)
    rw [List.length_append, List.length_singleton] at hodd
    have heven : bs.length % 2 = 0 := by omega
    rw [List.dropLast_concat, sumWords_concat heven, sumWords_concat heven]
  · rename_i hodd
    rw [sumWords_even (by omega)]
    exact (UInt32.add_zero _).symm

theorem chksum_spec {data : List UInt8} (h : data.length < 65536) :
    (chksum data).toNat < 4294901760 ∧ residue (chksum data) = value (taken data) ∧
      ((chksum data).toNat = 0 ↔ leNat (taken data) = 0) := by
  have hlen := length_taken data
  have hbound : (0 : UInt32).toNat + 65535 * (taken data).length < 4294967296 := by
    rw [UInt32.toNat_zero]
    omega
  obtain ⟨hle, hsum⟩ := sumWords_spec (taken data) 0 hbound
  have hzero := sumWords_eq_zero (taken data) 0 hbound
  rw [UInt32.toNat_zero] at hle hzero
  have hlow := (sumWords (taken data) 0).2.toNat_lt
  have hnat : (sumWords (taken data) 0).2.toUInt32.toNat = (sumWords (taken data) 0).2.toNat :=
    UInt8.toNat_toUInt32 _
  have hadd := toNat_add_of_lt (u := (sumWords (taken data) 0).1)
    (v := (sumWords (taken data) 0).2.toUInt32) (by omega)
  have hres : residue (0 : UInt32) = 0 := Nat.cast_zero
  rw [hres, zero_add] at hsum
  rw [chksum_eq, residue_add (by omega), hadd, ← hsum, hnat]
  refine ⟨by omega, ?_, by omega⟩
  rw [residue, residue, hnat]

theorem swapLow_eq {u : UInt32} (h : u.toNat < 65536) : swapLow u = swapBytesInWord u := by
  have hlow : (u &&& 0xff).toNat = u.toNat % 256 := by
    rw [UInt32.toNat_and]
    exact Nat.and_two_pow_sub_one_eq_mod u.toNat 8
  have hleft : ((u &&& 0xff) <<< 8).toNat = (u.toNat % 256) <<< 8 := by
    rw [UInt32.toNat_shiftLeft, hlow]
    change (u.toNat % 256) <<< 8 % 4294967296 = _
    rw [Nat.shiftLeft_eq]
    omega
  have hright : ((u &&& 0xff00) >>> 8).toNat = u.toNat / 256 := by
    rw [UInt32.toNat_shiftRight, UInt32.toNat_and]
    change (u.toNat &&& 0xff00) >>> 8 = _
    rw [Nat.shiftRight_and_distrib, Nat.shiftRight_eq_div_pow]
    have hmod := Nat.and_two_pow_sub_one_eq_mod (u.toNat / 2 ^ 8) 8
    change u.toNat / 256 &&& 255 = _ at hmod
    change u.toNat / 256 &&& 255 = _
    rw [hmod]
    omega
  rw [← UInt32.toNat_inj, swapBytesInWord_toNat h, swapLow, UInt32.toNat_or, hleft, hright,
    ← Nat.shiftLeft_add_eq_or_of_lt (by omega), Nat.shiftLeft_eq]
  omega

theorem SummedUp.addSegment6 {st : UInt32 × Bool} {bs data : List UInt8} (h : SummedUp st bs)
    (hdata : data.length < 65536) :
    SummedUp (addSegment6 st (data.length % 2 == 1) data) (bs ++ taken data) := by
  obtain ⟨hle, hsum, hzero⟩ := chksum_spec hdata
  have hst := h.lt
  have hadd := toNat_add_of_lt (u := st.1) (v := chksum data) (by omega)
  have hlt := foldU32t_twice_lt (st.1 + chksum data)
  have hvalue : residue (foldU32t (foldU32t (st.1 + chksum data))) = residue st.1 + value (taken data) := by
    rw [residue_foldU32t, residue_foldU32t, residue_add (by omega), hsum]
  have happend := h.append hlt hvalue
    (by rw [foldU32t_eq_zero, foldU32t_eq_zero, hadd, Nat.add_eq_zero_iff, hzero])
  rw [length_taken, ← swapLow_eq hlt] at happend
  exact happend

theorem SummedUp.addSegments6 {st : UInt32 × Bool} {bs : List UInt8} (h : SummedUp st bs) (next : List Seg) :
    SummedUp (next.foldl (fun st s => Frames.addSegment6 st (s.data.length % 2 == 1) s.data) st)
      (bs ++ ((next.map Seg.data).map taken).flatten) := by
  induction next generalizing st bs with
  | nil =>
    rw [List.map_nil, List.map_nil, List.flatten_nil, List.append_nil]
    exact h
  | cons s next ih =>
    rw [List.map_cons, List.map_cons, List.flatten_cons, ← List.append_assoc]
    exact ih (h.addSegment6 s.size)

theorem word_field (mem : ℕ → UInt8) (off : ℕ) :
    (UInt32.ofNat (field mem off 2)).toNat = leNat (slice mem off 2) ∧ leNat (slice mem off 2) < 65536 := by
  have hlt := leNat_lt (slice mem off 2)
  rw [length_slice] at hlt
  refine ⟨?_, hlt⟩
  rw [UInt32.toNat_ofNat', field]
  exact Nat.mod_eq_of_lt (by omega)

theorem addWords_spec (mem : ℕ → UInt8) (a b n : ℕ) {acc r : UInt32} (h : acc.toNat < 65536)
    (hr : r = ((List.range n).map fun i =>
      (UInt32.ofNat (field mem (a + 2 * i) 2), UInt32.ofNat (field mem (b + 2 * i) 2))).foldl
        (fun acc w => foldU32t (foldU32t (acc + w.1 + w.2))) acc) :
    r.toNat < 65536 ∧
      residue r = residue acc + value (slice mem a (2 * n)) + value (slice mem b (2 * n)) ∧
      (r.toNat = 0 ↔ acc.toNat = 0 ∧ leNat (slice mem a (2 * n)) = 0 ∧ leNat (slice mem b (2 * n)) = 0) := by
  induction n generalizing r with
  | zero =>
    rw [hr]
    refine ⟨h, ?_, ?_⟩
    · change residue acc = residue acc + value [] + value []
      rw [value_nil, add_zero, add_zero]
    · change acc.toNat = 0 ↔ acc.toNat = 0 ∧ 0 = 0 ∧ 0 = 0
      omega
  | succ n ih =>
    rw [List.range_succ, List.map_append, List.foldl_append] at hr
    obtain ⟨hlt, hsum, hzero⟩ := ih rfl
    revert hr hlt hsum hzero
    generalize ((List.range n).map _).foldl _ acc = q
    intro hr hlt hsum hzero
    obtain ⟨hnat, hword⟩ := word_field mem (a + 2 * n)
    obtain ⟨hnat', hword'⟩ := word_field mem (b + 2 * n)
    have e1 := toNat_add_of_lt (u := q) (v := UInt32.ofNat (field mem (a + 2 * n) 2)) (by omega)
    have e2 := toNat_add_of_lt (u := q + UInt32.ofNat (field mem (a + 2 * n) 2))
      (v := UInt32.ofNat (field mem (b + 2 * n) 2)) (by omega)
    have hcut : ∀ off, slice mem off (2 * (n + 1)) = slice mem off (2 * n) ++ slice mem (off + 2 * n) 2 :=
      fun off => slice_add
    have heven : ∀ off, (slice mem off (2 * n)).length % 2 = 0 := by
      intro off
      rw [length_slice]
      omega
    change r = foldU32t (foldU32t (q + UInt32.ofNat (field mem (a + 2 * n) 2) +
      UInt32.ofNat (field mem (b + 2 * n) 2))) at hr
    rw [hr, hcut, hcut, leNat_append_eq_zero, leNat_append_eq_zero, value_append_even (heven a),
      value_append_even (heven b), foldU32t_eq_zero, foldU32t_eq_zero, residue_foldU32t,
      residue_foldU32t, residue_add (by omega), residue_add (by omega), hsum]
    refine ⟨foldU32t_twice_lt _, ?_, by omega⟩
    rw [residue, residue, residue, hnat, hnat', value, value, value, value]
    ring

theorem addProtoLen_spec {acc : UInt32} (h : acc.toNat < 65536) (proto : UInt8) (len : UInt32) :
    residue (acc + (htons proto.toUInt16).toUInt32 + lowHalf len + highHalf len) =
        residue acc + 256 * (proto.toNat : ℕ) + residue len ∧
      ((acc + (htons proto.toUInt16).toUInt32 + lowHalf len + highHalf len).toNat = 0 ↔
        acc.toNat = 0 ∧ proto = 0 ∧ len.toNat = 0) := by
  have hproto := htons_proto proto
  have hprotolt := proto.toNat_lt
  have hlow := low_toNat len
  have hhigh := high_toNat len
  have hlen := len.toNat_lt
  have e1 := toNat_add_of_lt (u := acc) (v := (htons proto.toUInt16).toUInt32) (by omega)
  have e2 := toNat_add_of_lt (u := acc + (htons proto.toUInt16).toUInt32) (v := lowHalf len) (by omega)
  have e3 := toNat_add_of_lt (u := acc + (htons proto.toUInt16).toUInt32 + lowHalf len)
    (v := highHalf len) (by omega)
  constructor
  · rw [← residue_split len, residue, e3, e2, e1, hproto]
    simp only [residue, Nat.cast_add, Nat.cast_mul, Nat.cast_ofNat]
    ring
  · rw [← UInt8.toNat_inj, UInt8.toNat_zero]
    omega

namespace Mbuf

/-- What follows the IPv6 header, segment by segment, when the header is in the first one. The
length of the first piece is cut to 16 bits. -/
def payload6 (m : Mbuf) : List (List UInt8) :=
  slice m.mem 54 ((m.dataLen + 65536 - 54) % 65536) :: m.next.map Seg.data

def pseudo6 (m : Mbuf) : List UInt8 :=
  slice m.mem 22 32 ++ [0, 0] ++ leBytes 2 (htons m.payloadLen).toNat ++ [0, 0, 0, m.proto6]

end Mbuf

def oddEnds (byte : List UInt8 → UInt8) : List (List UInt8) → ZMod 65535
  | [] => 0
  | p :: ps =>
    if p.length % 2 = 1 then ((byte p).toNat : ℕ) + 256 * oddEnds byte ps else oddEnds byte ps

theorem value_taken (p : List UInt8) (h : p.length % 2 = 1) :
    value (taken p) + ((p.getLastD 0).toNat : ℕ) = value p + ((p.headD 0).toNat : ℕ) := by
  obtain ⟨bs, b, rfl⟩ : ∃ bs b, p = bs ++ [b] := by
    refine ⟨p.dropLast, p.getLast ?_, (List.dropLast_append_getLast _).symm⟩
    intro hnil
    rw [hnil] at h
    exact absurd h (by decide)
  have hodd := h
  rw [List.length_append, List.length_singleton] at h
  rw [taken, if_pos hodd, List.dropLast_concat, value_append_even (by omega), value_append_even (by omega),
    value_cons, value_cons, value_nil, List.getLastD_concat]
  ring

theorem value_flatten_taken (ps : List (List UInt8)) :
    value (ps.map taken).flatten + oddEnds (fun p => p.getLastD 0) ps =
      value ps.flatten + oddEnds (fun p => p.headD 0) ps := by
  induction ps with
  | nil => rfl
  | cons p ps ih =>
    rw [List.map_cons, List.flatten_cons, List.flatten_cons, value_append, value_append, length_taken,
      oddEnds, oddEnds]
    by_cases hodd : p.length % 2 = 1
    · have hp := value_taken p hodd
      rw [if_pos hodd, if_pos hodd, shift_pow_odd hodd]
      linear_combination hp + 256 * ih
    · rw [if_neg hodd, if_neg hodd, shift_pow_even (by omega), taken, if_neg hodd]
      linear_combination ih

namespace Mbuf
variable (m : Mbuf)

def EndsAgree : Prop :=
  oddEnds (fun p => p.headD 0) m.payload6 + ((m.payloadLen.toUInt32 - 40).toNat : ℕ) =
    oddEnds (fun p => p.getLastD 0) m.payload6 + 256 * (m.payloadLen.toNat : ℕ)

/-- What goes wrong in the sum of a packet cancels out, and not everything that is added is zero. -/
def SumsAgree : Prop :=
  m.EndsAgree ∧ (m.proto6 = 0 → m.payloadLen = 40 →
    ∃ b ∈ slice m.mem 22 32 ++ (m.payload6.map taken).flatten, b ≠ 0)

instance : Decidable m.SumsAgree :=
  inferInstanceAs (Decidable (_ = _ ∧ _))

def sum6 : ZMod 65535 :=
  value (m.payload6.map taken).flatten + value (slice m.mem 22 16) + value (slice m.mem 38 16) +
    256 * (m.proto6.toNat : ℕ) + ((m.payloadLen.toUInt32 - 40).toNat : ℕ)

def Zero6 : Prop :=
  m.proto6 = 0 ∧ m.payloadLen = 40 ∧ ∀ b ∈ slice m.mem 22 32 ++ (m.payload6.map taken).flatten, b = 0

def covered6 : List UInt8 := m.linear.pseudo6 ++ m.bytes.drop 54

def SplitSum : Prop :=
  m.sum6 = value m.covered6 ∧ (m.Zero6 ↔ ∀ b ∈ m.covered6, b = 0)

end Mbuf

section Checksum
variable {m : Mbuf}

theorem value_pseudo6 (m : Mbuf) :
    value m.pseudo6 = value (slice m.mem 22 16) + value (slice m.mem 38 16) +
      256 * (m.payloadLen.toNat : ℕ) + 256 * (m.proto6.toNat : ℕ) := by
  have hcut : slice m.mem 22 32 = slice m.mem 22 16 ++ slice m.mem 38 16 := slice_add (n := 16) (k := 16)
  have hlen : (((htons m.payloadLen).toNat : ℕ) : ZMod 65535) = 256 * (m.payloadLen.toNat : ℕ) := by
    have hswap := residue_swapBytesInWord (u := m.payloadLen.toUInt32) m.payloadLen.toNat_lt
    rwa [residue, residue, swapBytesInWord, UInt16.toUInt16_toUInt32, UInt16.toNat_toUInt32,
      UInt16.toNat_toUInt32] at hswap
  rw [Mbuf.pseudo6, hcut, value_append_even (by simp), value_append_even (by simp),
    value_append_even (by simp), value_append_even (by simp), value_leBytes (htons m.payloadLen).toNat_lt, hlen]
  simp only [value_cons, value_nil, UInt8.toNat_zero, Nat.cast_zero, mul_zero, add_zero, zero_add]
  linear_combination 256 * (m.proto6.toNat : ZMod 65535) * shift_shift

theorem leNat_addresses (m : Mbuf) : leNat (slice m.mem 22 16) = 0 ∧ leNat (slice m.mem 38 16) = 0 ↔
    leNat (slice m.mem 22 32) = 0 := by
  have hcut : slice m.mem 22 32 = slice m.mem 22 16 ++ slice m.mem 38 16 := slice_add (n := 16) (k := 16)
  rw [hcut, leNat_append_eq_zero]

theorem inet6ChksumPseudo_checksum_iff (m : Mbuf) (bs : List UInt8) :
    (htons (inet6ChksumPseudo m 54 (words m 22) (words m 38) m.proto6 (m.payloadLen.toUInt32 - 40))).toNat =
        checksum bs ↔ m.sum6 = value bs ∧ (m.Zero6 ↔ leNat bs = 0) := by
  have hshort : (slice m.mem 54 ((m.dataLen + 65536 - 54) % 65536)).length < 65536 := by
    rw [length_slice]
    omega
  have hparity : (m.dataLen % 2 == 1) =
      ((slice m.mem 54 ((m.dataLen + 65536 - 54) % 65536)).length % 2 == 1) := by
    have hcut : (m.dataLen + 65536 - 54) % 65536 % 2 = m.dataLen % 2 := by omega
    rw [length_slice, hcut]
  have hsummed := (SummedUp.start.addSegment6 hshort).addSegments6 m.next
  rw [List.nil_append, ← List.flatten_cons, ← List.map_cons, ← hparity] at hsummed
  change SummedUp _ (m.payload6.map taken).flatten at hsummed
  obtain ⟨hlt, hsum⟩ := hsummed.turned
  have hzero := hsummed.turned_eq_zero
  rw [← swapLow_eq hsummed.lt] at hlt hsum hzero
  have hzip : (words m 22).zip (words m 38) = (List.range 8).map fun i =>
      (UInt32.ofNat (field m.mem (22 + 2 * i) 2), UInt32.ofNat (field m.mem (38 + 2 * i) 2)) :=
    List.zip_map'
  obtain ⟨halt, hasum, hazero⟩ := addWords_spec m.mem 22 38 8 hlt rfl
  rw [inet6ChksumPseudo, hzip, not_fold_checksum_iff]
  revert hasum hazero halt
  generalize List.foldl _ _ (List.map _ (List.range 8)) = q
  intro halt hasum hazero
  obtain ⟨hres, hblank⟩ := addProtoLen_spec halt m.proto6 (m.payloadLen.toUInt32 - 40)
  have hforty : (m.payloadLen.toUInt32 - 40).toNat = 0 ↔ m.payloadLen = 40 := by
    have hlt := m.payloadLen.toNat_lt
    rw [UInt32.toNat_sub, UInt16.toNat_toUInt32, ← UInt16.toNat_inj]
    change (4294967296 - 40 + m.payloadLen.toNat) % 4294967296 = 0 ↔ m.payloadLen.toNat = 40
    omega
  apply and_congr
  · rw [hres, hasum, hsum, residue, Mbuf.sum6]
  · rw [hblank, hazero, hzero, hforty, leNat_addresses, Mbuf.Zero6, ← leNat_eq_zero, leNat_append_eq_zero]
    simp only [and_assoc, and_comm]

theorem sum6_eq_iff (m : Mbuf) : m.sum6 = value (m.pseudo6 ++ m.payload6.flatten) ↔ m.EndsAgree := by
  have htaken := value_flatten_taken m.payload6
  rw [Mbuf.sum6, value_append_even (by simp [Mbuf.pseudo6]), value_pseudo6, Mbuf.EndsAgree]
  constructor
  · intro hagree
    linear_combination hagree - htaken
  · intro hagree
    linear_combination hagree + htaken

theorem zero6_iff (hlen : m.payloadLen ≠ 0) :
    (m.Zero6 ↔ leNat (m.pseudo6 ++ m.payload6.flatten) = 0) ↔ (m.proto6 = 0 → m.payloadLen = 40 →
      ∃ b ∈ slice m.mem 22 32 ++ (m.payload6.map taken).flatten, b ≠ 0) := by
  have hpseudo : leNat (m.pseudo6 ++ m.payload6.flatten) ≠ 0 := by
    intro hall
    have hbytes := (leNat_append_eq_zero.mp (leNat_append_eq_zero.mp (leNat_append_eq_zero.mp hall).1).1).2
    rw [leNat_leBytes_eq_zero (htons m.payloadLen).toNat_lt, htons_toNat] at hbytes
    exact hlen (UInt16.toNat_inj.mp (by rw [UInt16.toNat_zero]; omega))
  rw [iff_false_intro hpseudo, iff_false, Mbuf.Zero6]
  push Not
  rfl

theorem oddEnds_nil (byte : List UInt8 → UInt8) {ps : List (List UInt8)} (h : ∀ p ∈ ps, p = []) :
    oddEnds byte ps = 0 := by
  induction ps with
  | nil => rfl
  | cons p ps ih =>
    obtain ⟨rfl, hps⟩ := List.forall_mem_cons.mp h
    exact ih hps

theorem not_endsAgree (hlen : m.payloadLen = 0) (h : ∀ p ∈ m.payload6, p = []) : ¬ m.EndsAgree := by
  rw [Mbuf.EndsAgree, oddEnds_nil _ h, oddEnds_nil _ h, hlen]
  decide

def Mbuf.Whole6 (m : Mbuf) : Prop :=
  54 + m.linear.payloadLen.toNat = m.pktLen

instance (m : Mbuf) : Decidable m.Whole6 :=
  inferInstanceAs (Decidable (_ = _))

def Mbuf.cleared (m : Mbuf) : Mbuf := m.write 70 [0, 0]

def Mbuf.ChecksumRight6 (m : Mbuf) : Prop :=
  (htons (field16 m.mem 70)).toNat = checksum m.cleared.covered6

instance (m : Mbuf) : Decidable m.ChecksumRight6 :=
  inferInstanceAs (Decidable (_ = _))

theorem Mbuf.write_write (m : Mbuf) (off : ℕ) {bs cs : List UInt8} (h : bs.length = cs.length) :
    (m.write off bs).write off cs = m.write off cs := by
  unfold Mbuf.write
  rw [Memory.write_write h]

theorem payload6_of_le (h : 54 ≤ m.dataLen) :
    m.payload6 = slice m.mem 54 (m.dataLen - 54) :: m.next.map Seg.data := by
  have hsize := m.size
  have hfirst : (m.dataLen + 65536 - 54) % 65536 = m.dataLen - 54 := by omega
  rw [Mbuf.payload6, hfirst]

theorem payloadLen_linear (h : 54 ≤ m.dataLen) : m.linear.payloadLen = m.payloadLen := by
  rw [Mbuf.payloadLen, Mbuf.payloadLen, field16, field16, field, field,
    slice_congr fun i _ hlt => Mbuf.linear_mem (by omega)]

theorem covered6_of_le (h : 54 ≤ m.dataLen) : m.covered6 = m.pseudo6 ++ m.payload6.flatten := by
  have haddrs : slice m.linear.mem 22 32 = slice m.mem 22 32 :=
    slice_congr fun i _ hlt => Mbuf.linear_mem (by omega)
  have hproto : m.linear.proto6 = m.proto6 := Mbuf.linear_mem (by omega)
  rw [Mbuf.covered6, drop_bytes_of_le h, payload6_of_le h, List.flatten_cons, Mbuf.pseudo6, Mbuf.pseudo6,
    haddrs, hproto, payloadLen_linear h]

theorem payload6_nil (h : 54 ≤ m.dataLen) (hwhole : m.pktLen = 54) : ∀ p ∈ m.payload6, p = [] := by
  rw [Mbuf.pktLen] at hwhole
  have hrest : (m.next.map fun s => s.data.length).sum = 0 := by omega
  rw [payload6_of_le h, List.forall_mem_cons]
  constructor
  · exact List.eq_nil_of_length_eq_zero (by rw [length_slice]; omega)
  · intro p hp
    obtain ⟨s, hs, rfl⟩ := List.mem_map.mp hp
    exact List.eq_nil_of_length_eq_zero (List.sum_eq_zero_iff.mp hrest _ (List.mem_map_of_mem hs))

/-- The checksum that `al_process` stores in an IPv6 packet is right exactly when the errors in
its sum cancel out. -/
theorem stored_checksum6_iff {ι : Type} {s up : Session ι} (hllb : s.ftype ≠ fltLlb)
    (hin : up.inType = true) (h : m.Whole6) :
    (alProcess s up m 54).ChecksumRight6 ↔
      if 54 ≤ m.dataLen then (setEnds s up m 54).SumsAgree else (setEnds s up m 54).SplitSum := by
  obtain ⟨hlen, hnext⟩ : (setEnds s up m 54).dataLen = m.dataLen ∧ (setEnds s up m 54).next = m.next :=
    setEnds_shape
  have hcleared : (setTransportChksum true (setEnds s up m 54) 54).cleared = setEnds s up m 54 := by
    obtain ⟨e, he⟩ : ∃ e : Mbuf, setEnds s up m 54 = e.write 70 [0, 0] := ⟨_, rfl⟩
    rw [he, setTransportChksum, Mbuf.cleared, Mbuf.write_write _ _ (length_leBytes 2 _), Mbuf.write_write _ _ rfl]
  have hstored : field16 (setTransportChksum true (setEnds s up m 54) 54).mem 70 =
      transportChksum true (setEnds s up m 54) 54 := field16_write _ _ _
  rw [alProcess_of_ne hllb, hin, if_pos rfl, Mbuf.ChecksumRight6, hcleared, hstored, transportChksum, if_pos rfl,
    inet6ChksumPseudo_checksum_iff]
  split
  · rename_i hheader
    have hpayload : (setEnds s up m 54).payloadLen = m.payloadLen := by
      have hmem : ∀ i, 18 ≤ i → i < 18 + 2 → (setEnds s up m 54).mem i = m.mem i := by
        intro i hle hlt
        refine setEnds_mem (by omega) (by omega) ?_ (fun _ => by omega) (fun _ => by omega)
        rw [AtChksum]
        omega
      rw [Mbuf.payloadLen, Mbuf.payloadLen, field16, field16, field, field, slice_congr hmem]
    rw [covered6_of_le (by omega), sum6_eq_iff, Mbuf.SumsAgree]
    by_cases hzero : (setEnds s up m 54).payloadLen = 0
    · have hwhole : (setEnds s up m 54).pktLen = 54 := by
        rw [Mbuf.pktLen, hlen, hnext, ← Mbuf.pktLen, ← h, payloadLen_linear hheader, ← hpayload, hzero]
        rfl
      have hnot := not_endsAgree hzero (payload6_nil (by omega) hwhole)
      rw [iff_false_intro hnot, false_and, false_and]
    · rw [zero6_iff hzero]
  · rw [Mbuf.SplitSum, leNat_eq_zero]

end Checksum

def headers6 (len : UInt8) : List UInt8 :=
  [1, 1, 1, 1, 1, 1, 2, 2, 2, 2, 2, 2, 0x86, 0xdd, 0x60, 0, 0, 0, 0, len, 6, 64] ++
    (16 :: List.replicate 14 0 ++ [1]) ++ (16 :: List.replicate 14 0 ++ [2])

def tcpHeader : List UInt8 := [3, 0xe8, 0, 80, 0, 0, 0, 1, 0, 0, 0, 0, 0x50, 2, 0, 0, 0, 0, 0, 0]

def natSession6 : Session ℕ := { natSession with inType := true }

def tcpFrame6 : Mbuf := single (headers6 20 ++ tcpHeader) (by decide)

def oddFrame6 : Mbuf :=
  { single (headers6 24 ++ tcpHeader ++ [244]) (by decide) with next := [⟨false, [25, 0, 0], by decide⟩] }

theorem odd_ends_cancel : natSession6.ftype ≠ fltLlb ∧ natSession6.inType = true ∧ oddFrame6.Whole6 ∧
    (setEnds natSession6 natSession6 oddFrame6 54).SumsAgree ∧
    (alProcess natSession6 natSession6 oddFrame6 54).ChecksumRight6 := by
  have hwhole : oddFrame6.Whole6 := by decide +kernel
  have hagree : (setEnds natSession6 natSession6 oddFrame6 54).SumsAgree := by decide +kernel
  exact ⟨by decide, rfl, hwhole, hagree, (stored_checksum6_iff (by decide) rfl hwhole).mpr hagree⟩

theorem checksum6_wrong : natSession6.ftype ≠ fltLlb ∧ natSession6.inType = true ∧ tcpFrame6.Whole6 ∧
    ¬ (alProcess natSession6 natSession6 tcpFrame6 54).ChecksumRight6 :=
  ⟨by decide, rfl, by decide +kernel, by decide +kernel⟩

end Aware.Frames
