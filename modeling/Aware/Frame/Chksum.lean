import Aware.Frame.Mbuf

/-!
# Checksums

The sums of `al_chksum.c`. The IPv4 one goes through all data of all segments and takes it up in
words of the host; modulo 65535 that is the number the bytes denote.
-/
namespace Aware.Frames
open Aware.Memory Aware.OnesSum

def lowHalf (u : UInt32) : UInt32 := u &&& 0xffff

def highHalf (u : UInt32) : UInt32 := u >>> 16

def foldU32t (u : UInt32) : UInt32 := highHalf u + lowHalf u

def swapBytesInWord (w : UInt32) : UInt32 := (htons w.toUInt16).toUInt32

def word (b c : UInt8) : UInt32 := b.toUInt32 + (c.toUInt32 <<< 8)

/-- The loop of `lwip_standard_chksum`, with the byte it leaves over. -/
def sumWords : List UInt8 → UInt32 → UInt32 × UInt8
  | b :: c :: bs, sum => sumWords bs (sum + word b c)
  | [b], sum => (sum, b)
  | [], sum => (sum, 0)

def alignHead (odd : Bool) (data : List UInt8) : UInt8 × List UInt8 :=
  match odd, data with
  | true, b :: bs => (b, bs)
  | _, data => (0, data)

def alignedSum (high : UInt8) (rest : List UInt8) : UInt32 :=
  let bulk := sumWords rest 0
  foldU32t (foldU32t (bulk.1 + word bulk.2 high))

/-- `odd` says that the data starts at an odd address. -/
def lwipStandardChksum (odd : Bool) (data : List UInt8) : UInt16 :=
  let sum := alignedSum (alignHead odd data).1 (alignHead odd data).2
  (if odd then swapBytesInWord sum else sum).toUInt16

def inetChksum (odd : Bool) (data : List UInt8) : UInt16 := ~~~ lwipStandardChksum odd data

def addSegment (st : UInt32 × Bool) (odd oddLen : Bool) (data : List UInt8) : UInt32 × Bool :=
  let acc := foldU32t (st.1 + (lwipStandardChksum odd data).toUInt32)
  if oddLen then (swapBytesInWord acc, !st.2) else (acc, st.2)

def addSegments (st : UInt32 × Bool) (next : List Seg) : UInt32 × Bool :=
  next.foldl (fun st s => addSegment st s.odd (s.data.length % 2 == 1) s.data) st

def addPseudo (acc src dest : UInt32) (proto : UInt8) (protoLen : UInt16) : UInt32 :=
  let acc := acc + lowHalf src + highHalf src
  let acc := acc + lowHalf dest + highHalf dest
  acc + (htons proto.toUInt16).toUInt32 + (htons protoLen).toUInt32

def inetChksumPseudo (m : Mbuf) (boff : ℕ) (src dest : UInt32) (proto : UInt8)
    (protoLen : UInt16) : UInt16 :=
  let st := addSegment (0, false) (m.odd != (boff % 2 == 1)) ((m.dataLen + boff) % 2 == 1)
    (slice m.mem boff (m.dataLen - boff))
  let st := addSegments st m.next
  let acc := addPseudo (if st.2 then swapBytesInWord st.1 else st.1) src dest proto protoLen
  ~~~ (foldU32t (foldU32t acc)).toUInt16

/-- `chksum`: the odd byte that it adds is the first one of the data. -/
def chksum (data : List UInt8) : UInt32 :=
  let acc := (sumWords data 0).1
  if data.length % 2 = 1 then acc + (data.headD 0).toUInt32 else acc

def swapLow (acc : UInt32) : UInt32 := ((acc &&& 0xff) <<< 8) ||| ((acc &&& 0xff00) >>> 8)

/-- One turn of the loop of `inet6_chksum_pseudo`; its inner loop folds at most twice. -/
def addSegment6 (st : UInt32 × Bool) (oddLen : Bool) (data : List UInt8) : UInt32 × Bool :=
  let acc := foldU32t (foldU32t (st.1 + chksum data))
  if oddLen then (swapLow acc, !st.2) else (acc, st.2)

def inet6ChksumPseudo (m : Mbuf) (boff : ℕ) (src dest : List UInt32) (proto : UInt8)
    (protoLen : UInt32) : UInt16 :=
  -- the length of the first piece is cut to 16 bits
  let len := (m.dataLen + 65536 - boff) % 65536
  let st := addSegment6 (0, false) (m.dataLen % 2 == 1) (slice m.mem boff len)
  let st := m.next.foldl (fun st s => addSegment6 st (s.data.length % 2 == 1) s.data) st
  let acc := if st.2 then swapLow st.1 else st.1
  let acc := (src.zip dest).foldl (fun acc w => foldU32t (foldU32t (acc + w.1 + w.2))) acc
  let acc := acc + (htons proto.toUInt16).toUInt32
  let acc := acc + lowHalf protoLen + highHalf protoLen
  ~~~ (foldU32t (foldU32t acc)).toUInt16

def residue (u : UInt32) : ZMod 65535 := (u.toNat : ℕ)

theorem high_toNat (u : UInt32) : (highHalf u).toNat = u.toNat / 65536 := by
  rw [highHalf, UInt32.toNat_shiftRight]
  exact Nat.shiftRight_eq_div_pow u.toNat 16

theorem low_toNat (u : UInt32) : (lowHalf u).toNat = u.toNat % 65536 := by
  rw [lowHalf, UInt32.toNat_and]
  exact Nat.and_two_pow_sub_one_eq_mod u.toNat 16

theorem foldU32t_toNat (u : UInt32) : (foldU32t u).toNat = u.toNat / 65536 + u.toNat % 65536 := by
  have hlt := u.toNat_lt
  rw [foldU32t, UInt32.toNat_add, high_toNat, low_toNat, Nat.mod_eq_of_lt (by omega)]

theorem residue_foldU32t (u : UInt32) : residue (foldU32t u) = residue u := by
  have hone : ((65536 : ℕ) : ZMod 65535) = 1 := by decide
  have hsplit := Nat.div_add_mod u.toNat 65536
  rw [residue, residue, foldU32t_toNat, Nat.cast_add]
  conv_rhs => rw [← hsplit, Nat.cast_add, Nat.cast_mul, hone, one_mul]

theorem foldU32t_twice_lt (u : UInt32) : (foldU32t (foldU32t u)).toNat < 65536 := by
  have hlt := u.toNat_lt
  rw [foldU32t_toNat, foldU32t_toNat]
  omega

variable {u acc : UInt32} {data bs : List UInt8} {st : UInt32 × Bool}

theorem swapBytesInWord_toNat (h : u.toNat < 65536) :
    (swapBytesInWord u).toNat = u.toNat / 256 + 256 * (u.toNat % 256) := by
  rw [swapBytesInWord, UInt16.toNat_toUInt32, htons_toNat, UInt32.toNat_toUInt16, Nat.mod_eq_of_lt h]

theorem swapBytesInWord_lt (u : UInt32) : (swapBytesInWord u).toNat < 65536 := by
  rw [swapBytesInWord, UInt16.toNat_toUInt32]
  exact UInt16.toNat_lt _

theorem residue_swapBytesInWord (h : u.toNat < 65536) :
    residue (swapBytesInWord u) = 256 * residue u := by
  have hsplit : ((u.toNat : ℕ) : ZMod 65535) = 256 * (u.toNat / 256 : ℕ) + (u.toNat % 256 : ℕ) := by
    conv_lhs => rw [← Nat.div_add_mod u.toNat 256]
    push_cast
    ring
  rw [residue, residue, swapBytesInWord_toNat h, hsplit]
  push_cast
  linear_combination (-(u.toNat / 256 : ℕ) : ZMod 65535) * shift_shift

theorem word_toNat (b c : UInt8) : (word b c).toNat = b.toNat + 256 * c.toNat := by
  have hb := b.toNat_lt
  have hc := c.toNat_lt
  have hshift : (c.toUInt32 <<< 8).toNat = 256 * c.toNat := by
    rw [UInt32.toNat_shiftLeft, Nat.shiftLeft_eq, UInt8.toNat_toUInt32]
    change c.toNat * 256 % 4294967296 = _
    omega
  rw [word, UInt32.toNat_add, hshift, UInt8.toNat_toUInt32]
  omega

theorem toNat_add_of_lt {v : UInt32} (h : u.toNat + v.toNat < 4294967296) :
    (u + v).toNat = u.toNat + v.toNat := by
  rw [UInt32.toNat_add, Nat.mod_eq_of_lt h]

theorem residue_add {v : UInt32} (h : u.toNat + v.toNat < 4294967296) :
    residue (u + v) = residue u + residue v := by
  rw [residue, toNat_add_of_lt h, Nat.cast_add]
  rfl

theorem residue_word (b c : UInt8) : residue (word b c) = (b.toNat : ℕ) + 256 * (c.toNat : ℕ) := by
  rw [residue, word_toNat, Nat.cast_add, Nat.cast_mul]
  rfl

theorem sumWords_spec (bs : List UInt8) (sum : UInt32) (h : sum.toNat + 65535 * bs.length < 4294967296) :
    (sumWords bs sum).1.toNat ≤ sum.toNat + 65535 * bs.length ∧
      residue (sumWords bs sum).1 + ((sumWords bs sum).2.toNat : ℕ) = residue sum + value bs := by
  induction bs, sum using sumWords.induct with
  | case1 b c bs sum ih =>
    have hb := b.toNat_lt
    have hc := c.toNat_lt
    have hword := word_toNat b c
    rw [List.length_cons, List.length_cons] at h ⊢
    have hadd := toNat_add_of_lt (u := sum) (v := word b c) (by omega)
    obtain ⟨hle, hres⟩ := ih (by omega)
    refine ⟨by rw [sumWords]; omega, ?_⟩
    rw [sumWords, hres, residue_add (by omega), residue_word, value_cons, value_cons]
    linear_combination (-value bs) * shift_shift
  | case2 b sum =>
    refine ⟨Nat.le_add_right _ _, ?_⟩
    rw [sumWords, value_cons, value_nil, mul_zero, add_zero]
  | case3 sum =>
    refine ⟨Nat.le_add_right _ _, ?_⟩
    rw [sumWords, value_nil, UInt8.toNat_zero, Nat.cast_zero]

theorem alignHead_spec (odd : Bool) (data : List UInt8) :
    (alignHead odd data).2.length ≤ data.length ∧
      (if odd then 256 * (value (alignHead odd data).2 + 256 * ((alignHead odd data).1.toNat : ℕ))
        else value (alignHead odd data).2 + 256 * ((alignHead odd data).1.toNat : ℕ)) = value data := by
  cases odd with
  | false => simp [alignHead]
  | true =>
    cases data with
    | nil => simp [alignHead]
    | cons b bs =>
      refine ⟨Nat.le_succ _, ?_⟩
      rw [if_pos rfl, alignHead, value_cons]
      linear_combination ((b.toNat : ℕ) : ZMod 65535) * shift_shift

theorem residue_alignedSum (high : UInt8) {rest : List UInt8} (h : rest.length < 65536) :
    (alignedSum high rest).toNat < 65536 ∧
      residue (alignedSum high rest) = value rest + 256 * (high.toNat : ℕ) := by
  obtain ⟨hle, hsum⟩ := sumWords_spec rest 0 (by
    rw [UInt32.toNat_zero]
    omega)
  rw [UInt32.toNat_zero] at hle
  have hzero : residue 0 = 0 := Nat.cast_zero
  have hword := word_toNat (sumWords rest 0).2 high
  have hlow := (sumWords rest 0).2.toNat_lt
  have hhigh := high.toNat_lt
  refine ⟨foldU32t_twice_lt _, ?_⟩
  rw [alignedSum, residue_foldU32t, residue_foldU32t, residue_add (by omega), residue_word, ← add_assoc,
    hsum, hzero, zero_add]

theorem residue_lwipStandardChksum (odd : Bool) (h : data.length < 65536) :
    (((lwipStandardChksum odd data).toNat : ℕ) : ZMod 65535) = value data := by
  obtain ⟨hlen, hdata⟩ := alignHead_spec odd data
  obtain ⟨hlt, hsum⟩ := residue_alignedSum (alignHead odd data).1 (hlen.trans_lt h)
  rw [← hdata, ← hsum, lwipStandardChksum, UInt32.toNat_toUInt16]
  cases odd with
  | false =>
    rw [if_neg Bool.false_ne_true, if_neg Bool.false_ne_true, Nat.mod_eq_of_lt hlt]
    rfl
  | true =>
    rw [if_pos rfl, if_pos rfl, Nat.mod_eq_of_lt (swapBytesInWord_lt _)]
    exact residue_swapBytesInWord hlt

theorem add_lwipStandardChksum (st : UInt32 × Bool) (odd : Bool)
    (hst : st.1.toNat < 65536) (h : data.length < 65536) :
    (foldU32t (st.1 + (lwipStandardChksum odd data).toUInt32)).toNat < 65536 ∧
      residue (foldU32t (st.1 + (lwipStandardChksum odd data).toUInt32)) =
        residue st.1 + value data := by
  have hlt := (lwipStandardChksum odd data).toNat_lt
  have hnat : (lwipStandardChksum odd data).toUInt32.toNat = (lwipStandardChksum odd data).toNat :=
    UInt16.toNat_toUInt32 _
  have hadd := toNat_add_of_lt (u := st.1) (v := (lwipStandardChksum odd data).toUInt32) (by omega)
  constructor
  · rw [foldU32t_toNat]
    omega
  · rw [residue_foldU32t, residue_add (by omega), ← residue_lwipStandardChksum odd h, residue, residue, hnat]

structure Summed (st : UInt32 × Bool) (bs : List UInt8) : Prop where
  lt : st.1.toNat < 65536
  swapped : st.2 = (bs.length % 2 == 1)
  sum : residue st.1 = 256 ^ bs.length * value bs

theorem Summed.append (h : Summed st bs)
    (hlt : acc.toNat < 65536) (hsum : residue acc = residue st.1 + value data) :
    Summed (if data.length % 2 == 1 then (swapBytesInWord acc, !st.2) else (acc, st.2)) (bs ++ data) := by
  have hvalue : residue st.1 + value data = 256 ^ bs.length * value (bs ++ data) := by
    rw [h.sum, value_append]
    linear_combination (-value data) * shift_pow_shift_pow bs.length
  rcases Nat.mod_two_eq_zero_or_one data.length with heven | hodd
  · rw [heven]
    refine ⟨hlt, ?_, ?_⟩
    · change st.2 = _
      rw [h.swapped, List.length_append, Nat.add_mod, heven, Nat.add_zero, Nat.mod_mod]
    · change residue acc = _
      rw [hsum, hvalue, List.length_append, pow_add, shift_pow_even heven, mul_one]
  · rw [hodd]
    refine ⟨swapBytesInWord_lt _, ?_, ?_⟩
    · change (!st.2) = _
      rw [h.swapped, List.length_append, Nat.add_mod, hodd]
      rcases Nat.mod_two_eq_zero_or_one bs.length with hbs | hbs <;> rw [hbs] <;> rfl
    · change residue (swapBytesInWord acc) = _
      rw [residue_swapBytesInWord hlt, hsum, hvalue, List.length_append, pow_add, shift_pow_odd hodd]
      ring

theorem Summed.addSegment (h : Summed st bs) (odd : Bool) (hdata : data.length < 65536) :
    Summed (addSegment st odd (data.length % 2 == 1) data) (bs ++ data) := by
  obtain ⟨hlt, hsum⟩ := add_lwipStandardChksum st odd h.lt hdata
  exact h.append hlt hsum

theorem Summed.addSegments (h : Summed st bs) (next : List Seg) :
    Summed (addSegments st next) (bs ++ (next.map Seg.data).flatten) := by
  induction next generalizing st bs with
  | nil =>
    rw [List.map_nil, List.flatten_nil, List.append_nil]
    exact h
  | cons s next ih =>
    rw [List.map_cons, List.flatten_cons, ← List.append_assoc]
    exact ih (h.addSegment s.odd s.size)

theorem Summed.turned (h : Summed st bs) :
    (if st.2 then swapBytesInWord st.1 else st.1).toNat < 65536 ∧
      residue (if st.2 then swapBytesInWord st.1 else st.1) = value bs := by
  rw [h.swapped]
  rcases Nat.mod_two_eq_zero_or_one bs.length with heven | hodd
  · rw [heven]
    refine ⟨h.lt, ?_⟩
    rw [if_neg (by decide), h.sum, shift_pow_even heven, one_mul]
  · rw [hodd]
    refine ⟨swapBytesInWord_lt _, ?_⟩
    rw [if_pos (by decide), residue_swapBytesInWord h.lt, h.sum, shift_pow_odd hodd, ← mul_assoc,
      shift_shift, one_mul]

theorem residue_split (u : UInt32) : residue (lowHalf u) + residue (highHalf u) = residue u := by
  rw [← residue_foldU32t u, residue, residue, residue, low_toNat, high_toNat, foldU32t_toNat, Nat.cast_add,
    add_comm]

theorem not_toNat (x : UInt16) : (~~~ x).toNat = 65535 - x.toNat := by
  have hlt := x.toNat_lt
  rw [UInt16.toNat_not]
  rfl

def pseudoHeader (src dest : UInt32) (proto : UInt8) (protoLen : UInt16) : List UInt8 :=
  leBytes 4 src.toNat ++ leBytes 4 dest.toNat ++ [0, proto] ++ leBytes 2 (htons protoLen).toNat

theorem value_pseudoHeader (src dest : UInt32) (proto : UInt8) (protoLen : UInt16) :
    value (pseudoHeader src dest proto protoLen) =
      residue src + residue dest + 256 * (proto.toNat : ℕ) + ((htons protoLen).toNat : ℕ) := by
  rw [pseudoHeader, value_append_even (by simp), value_append_even (by simp), value_append_even (by simp),
    value_leBytes src.toNat_lt, value_leBytes dest.toNat_lt, value_leBytes (htons protoLen).toNat_lt,
    value_cons, value_cons, value_nil]
  simp [residue]

theorem htons_proto (proto : UInt8) : (htons proto.toUInt16).toUInt32.toNat = 256 * proto.toNat := by
  have hlt := proto.toNat_lt
  rw [UInt16.toNat_toUInt32, htons_toNat, UInt8.toNat_toUInt16]
  omega

theorem addPseudo_toNat (h : acc.toNat < 65536) (src dest : UInt32) (proto : UInt8)
    (protoLen : UInt16) :
    (addPseudo acc src dest proto protoLen).toNat =
      acc.toNat + (lowHalf src).toNat + (highHalf src).toNat + (lowHalf dest).toNat +
        (highHalf dest).toNat + 256 * proto.toNat + (htons protoLen).toNat := by
  have hlen : (htons protoLen).toUInt32.toNat = (htons protoLen).toNat := UInt16.toNat_toUInt32 _
  have hlenlt := (htons protoLen).toNat_lt
  have hproto := htons_proto proto
  have hprotolt := proto.toNat_lt
  have hsrc := src.toNat_lt
  have hdest := dest.toNat_lt
  have h1 := low_toNat src
  have h2 := high_toNat src
  have h3 := low_toNat dest
  have h4 := high_toNat dest
  have e1 := toNat_add_of_lt (u := acc) (v := lowHalf src) (by omega)
  have e2 := toNat_add_of_lt (u := acc + lowHalf src) (v := highHalf src) (by omega)
  have e3 := toNat_add_of_lt (u := acc + lowHalf src + highHalf src) (v := lowHalf dest) (by omega)
  have e4 := toNat_add_of_lt (u := acc + lowHalf src + highHalf src + lowHalf dest)
    (v := highHalf dest) (by omega)
  have e5 := toNat_add_of_lt (u := acc + lowHalf src + highHalf src + lowHalf dest + highHalf dest)
    (v := (htons proto.toUInt16).toUInt32) (by omega)
  rw [addPseudo, toNat_add_of_lt (by omega), e5, e4, e3, e2, e1, hproto, hlen]

theorem addPseudo_spec (h : acc.toNat < 65536) (src dest : UInt32) (proto : UInt8)
    (protoLen : UInt16) :
    residue (addPseudo acc src dest proto protoLen) =
      residue acc + value (pseudoHeader src dest proto protoLen) := by
  rw [residue, addPseudo_toNat h, value_pseudoHeader, ← residue_split src, ← residue_split dest]
  simp only [residue, Nat.cast_add, Nat.cast_mul, Nat.cast_ofNat]
  ring

theorem cast_not_fold (u : UInt32) :
    (((~~~ (foldU32t (foldU32t u)).toUInt16).toNat : ℕ) : ZMod 65535) = -residue u := by
  have hlt := foldU32t_twice_lt u
  have hzero : ((65535 : ℕ) : ZMod 65535) = 0 := ZMod.natCast_self 65535
  rw [not_toNat, UInt32.toNat_toUInt16, Nat.mod_eq_of_lt hlt, Nat.cast_sub (by omega), hzero, zero_sub,
    ← residue_foldU32t u, ← residue_foldU32t (foldU32t u)]
  rfl

theorem residue_inetChksumPseudo (m : Mbuf) {boff : ℕ} (h : boff ≤ m.dataLen) (src dest : UInt32)
    (proto : UInt8) (protoLen : UInt16) :
    (((inetChksumPseudo m boff src dest proto protoLen).toNat : ℕ) : ZMod 65535) =
      -(value (pseudoHeader src dest proto protoLen) +
        value (slice m.mem boff (m.dataLen - boff) ++ (m.next.map Seg.data).flatten)) := by
  have hsize := m.size
  have hempty : Summed (0, false) [] := ⟨by decide, rfl, by simp [residue]⟩
  have hparity : ((m.dataLen + boff) % 2 == 1) = ((slice m.mem boff (m.dataLen - boff)).length % 2 == 1) := by
    rw [length_slice]
    congr 1
    omega
  have hshort : (slice m.mem boff (m.dataLen - boff)).length < 65536 := by
    rw [length_slice]
    omega
  have hfirst := hempty.addSegment (m.odd != (boff % 2 == 1)) hshort
  rw [← hparity] at hfirst
  obtain ⟨hlt, hsum⟩ := (hfirst.addSegments m.next).turned
  rw [List.nil_append] at hsum
  rw [inetChksumPseudo, cast_not_fold, addPseudo_spec hlt, hsum, add_comm]

theorem residue_inetChksum (odd : Bool) (h : data.length < 65536) :
    (((inetChksum odd data).toNat : ℕ) : ZMod 65535) = -value data := by
  have hlt := (lwipStandardChksum odd data).toNat_lt
  have hzero : ((65535 : ℕ) : ZMod 65535) = 0 := ZMod.natCast_self 65535
  rw [inetChksum, not_toNat, Nat.cast_sub (by omega), hzero, zero_sub, residue_lwipStandardChksum odd h]

end Aware.Frames
