import Mathlib.Data.ZMod.Basic
import Mathlib.Tactic.LinearCombination
import Mathlib.Tactic.Ring

/-!
# Ones' complement sums of bytes

The 16-bit ones' complement sum of a string of bytes, and the number that the string denotes with
its first byte lowest. The two agree modulo 65535 up to the order of the bytes in a word, so that a
sum can be taken in either order and in pieces.
-/
namespace Aware.OnesSum

def leNat : List UInt8 → ℕ
  | [] => 0
  | b :: bs => b.toNat + 256 * leNat bs

def leBytes : ℕ → ℕ → List UInt8
  | 0, _ => []
  | n + 1, x => UInt8.ofNat x :: leBytes n (x / 256)

@[simp] theorem length_leBytes (n x : ℕ) : (leBytes n x).length = n := by
  induction n generalizing x with
  | zero => rfl
  | succ n ih => exact congrArg Nat.succ (ih (x / 256))

theorem leNat_leBytes (n x : ℕ) : leNat (leBytes n x) = x % 256 ^ n := by
  induction n generalizing x with
  | zero => exact (Nat.mod_one x).symm
  | succ n ih =>
    rw [leBytes, leNat, ih, UInt8.toNat_ofNat', Nat.pow_succ' (m := 256), Nat.mod_mul]

theorem leNat_append (a b : List UInt8) : leNat (a ++ b) = leNat a + 256 ^ a.length * leNat b := by
  induction a with
  | nil => rw [List.nil_append, leNat, List.length_nil, Nat.zero_add, Nat.pow_zero, Nat.one_mul]
  | cons x a ih =>
    rw [List.cons_append, leNat, leNat, ih, List.length_cons, Nat.pow_succ']
    ring

theorem leNat_lt (bs : List UInt8) : leNat bs < 256 ^ bs.length := by
  induction bs with
  | nil => exact Nat.zero_lt_one
  | cons b bs ih =>
    have hb := b.toNat_lt
    rw [leNat, List.length_cons, Nat.pow_succ']
    omega

theorem leNat_eq_zero {bs : List UInt8} : leNat bs = 0 ↔ ∀ b ∈ bs, b = 0 := by
  induction bs with
  | nil => simp [leNat]
  | cons b bs ih =>
    rw [leNat, Nat.add_eq_zero_iff, mul_eq_zero, List.forall_mem_cons, ih, ← UInt8.toNat_inj]
    simp

theorem leNat_append_eq_zero {a b : List UInt8} : leNat (a ++ b) = 0 ↔ leNat a = 0 ∧ leNat b = 0 := by
  rw [leNat_eq_zero, leNat_eq_zero, leNat_eq_zero, List.forall_mem_append]

theorem leNat_leBytes_eq_zero {n x : ℕ} (h : x < 256 ^ n) : leNat (leBytes n x) = 0 ↔ x = 0 := by
  rw [leNat_leBytes, Nat.mod_eq_of_lt h]

/-- Addition with the carry brought round. -/
def onesAdd (a b : ℕ) : ℕ :=
  if a + b < 65536 then a + b else a + b - 65535

def beWords : List UInt8 → List ℕ
  | [] => []
  | [b] => [256 * b.toNat]
  | b :: c :: bs => (256 * b.toNat + c.toNat) :: beWords bs

def onesSum (ws : List ℕ) : ℕ :=
  ws.foldl onesAdd 0

/-- A string that carries its checksum sums up to the negative zero. -/
def Verifies (bs : List UInt8) : Prop :=
  onesSum (beWords bs) = 65535

instance (bs : List UInt8) : Decidable (Verifies bs) :=
  inferInstanceAs (Decidable (_ = _))

def checksum (bs : List UInt8) : ℕ :=
  65535 - onesSum (beWords bs)

theorem beWords_lt (bs : List UInt8) : ∀ w ∈ beWords bs, w < 65536 := by
  induction bs using beWords.induct with
  | case1 => simp [beWords]
  | case2 b =>
    have hb := b.toNat_lt
    simp only [beWords, List.mem_singleton, forall_eq]
    omega
  | case3 b c bs ih =>
    have hb := b.toNat_lt
    have hc := c.toNat_lt
    rw [beWords, List.forall_mem_cons]
    exact ⟨by omega, ih⟩

theorem foldl_onesAdd {ws : List ℕ} (hws : ∀ w ∈ ws, w < 65536) {a : ℕ} (ha : a < 65536) :
    ws.foldl onesAdd a < 65536 ∧ ws.foldl onesAdd a % 65535 = (a + ws.sum) % 65535 ∧
      (ws.foldl onesAdd a = 0 ↔ a + ws.sum = 0) := by
  induction ws generalizing a with
  | nil => exact ⟨ha, rfl, Iff.rfl⟩
  | cons w ws ih =>
    obtain ⟨hw, hws⟩ := List.forall_mem_cons.mp hws
    have hsum : onesAdd a w < 65536 ∧ onesAdd a w % 65535 = (a + w) % 65535 ∧
        (onesAdd a w = 0 ↔ a + w = 0) := by
      unfold onesAdd
      split <;> omega
    obtain ⟨hlt, hmod, hzero⟩ := ih hws hsum.1
    rw [List.foldl_cons, List.sum_cons]
    refine ⟨hlt, ?_, ?_⟩
    · rw [hmod]
      omega
    · rw [hzero]
      omega

theorem shift_shift : (256 : ZMod 65535) * 256 = 1 := by
  decide

def value (bs : List UInt8) : ZMod 65535 := (leNat bs : ℕ)

@[simp] theorem value_nil : value [] = 0 := Nat.cast_zero

theorem value_cons (b : UInt8) (bs : List UInt8) : value (b :: bs) = (b.toNat : ℕ) + 256 * value bs := by
  rw [value, leNat, Nat.cast_add, Nat.cast_mul]
  rfl

theorem value_append (a b : List UInt8) : value (a ++ b) = value a + 256 ^ a.length * value b := by
  rw [value, leNat_append, Nat.cast_add, Nat.cast_mul, Nat.cast_pow]
  rfl

theorem value_leBytes {n x : ℕ} (h : x < 256 ^ n) : value (leBytes n x) = (x : ℕ) := by
  rw [value, leNat_leBytes, Nat.mod_eq_of_lt h]

theorem shift_pow_shift_pow (n : ℕ) : (256 : ZMod 65535) ^ n * 256 ^ n = 1 := by
  rw [← mul_pow, shift_shift, one_pow]

theorem shift_pow_even {n : ℕ} (h : n % 2 = 0) : (256 : ZMod 65535) ^ n = 1 := by
  rw [← Nat.div_add_mod n 2, h, Nat.add_zero, pow_mul, pow_two, shift_shift, one_pow]

theorem shift_pow_odd {n : ℕ} (h : n % 2 = 1) : (256 : ZMod 65535) ^ n = 256 := by
  rw [← Nat.div_add_mod n 2, h, pow_succ, pow_mul, pow_two, shift_shift, one_pow, one_mul]

theorem value_append_even {a : List UInt8} (h : a.length % 2 = 0) (b : List UInt8) :
    value (a ++ b) = value a + value b := by
  rw [value_append, shift_pow_even h, one_mul]

theorem sum_beWords (bs : List UInt8) : (((beWords bs).sum : ℕ) : ZMod 65535) = 256 * value bs := by
  induction bs using beWords.induct with
  | case1 => simp [beWords]
  | case2 b => simp [beWords, value_cons]
  | case3 b c bs ih =>
    rw [beWords, List.sum_cons, Nat.cast_add, ih, value_cons, value_cons]
    push_cast
    linear_combination (-(c.toNat : ZMod 65535) - 256 * value bs) * shift_shift

theorem sum_beWords_eq_zero (bs : List UInt8) : (beWords bs).sum = 0 ↔ leNat bs = 0 := by
  induction bs using beWords.induct with
  | case1 => exact Iff.rfl
  | case2 b =>
    simp only [beWords, leNat, List.sum_singleton]
    omega
  | case3 b c bs ih =>
    simp only [beWords, leNat, List.sum_cons]
    omega

theorem onesSum_beWords_iff (bs : List UInt8) {x : ℕ} (hx : x < 65536) :
    onesSum (beWords bs) = x / 256 + 256 * (x % 256) ↔
      (x : ZMod 65535) = value bs ∧ (x = 0 ↔ leNat bs = 0) := by
  obtain ⟨hlt, hmod, hzero⟩ := foldl_onesAdd (beWords_lt bs) (Nat.zero_lt_succ 65535)
  rw [Nat.zero_add] at hmod
  rw [Nat.zero_add, sum_beWords_eq_zero] at hzero
  have hcast : (x : ZMod 65535) = value bs ↔ 256 * x % 65535 = (beWords bs).sum % 65535 := by
    rw [← Nat.ModEq, ← ZMod.natCast_eq_natCast_iff, sum_beWords, Nat.cast_mul]
    constructor
    · intro h
      rw [h]
      rfl
    · intro h
      have hturned : (256 : ZMod 65535) * x = 256 * value bs := h
      linear_combination 256 * hturned + (value bs - x) * shift_shift
  rw [hcast, ← hzero, ← hmod]
  change onesSum (beWords bs) < 65536 at hlt
  change _ ↔ _ = onesSum (beWords bs) % 65535 ∧ (x = 0 ↔ onesSum (beWords bs) = 0)
  omega

theorem verifies_iff {bs : List UInt8} : Verifies bs ↔ leNat bs ≠ 0 ∧ value bs = 0 := by
  obtain ⟨hlt, hmod, hzero⟩ := foldl_onesAdd (beWords_lt bs) (Nat.zero_lt_succ 65535)
  rw [Nat.zero_add, sum_beWords_eq_zero] at hzero
  rw [Nat.zero_add] at hmod
  have hcast : value bs = 0 ↔ (beWords bs).sum % 65535 = 0 := by
    rw [← Nat.dvd_iff_mod_eq_zero, ← ZMod.natCast_eq_zero_iff, sum_beWords]
    constructor
    · intro h
      rw [h, mul_zero]
    · intro h
      linear_combination 256 * h - value bs * shift_shift
  rw [hcast, Verifies, onesSum, ← hmod, Ne, ← hzero]
  omega

end Aware.OnesSum
