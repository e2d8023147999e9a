import Mathlib.Data.UInt
import Mathlib.Tactic.Common

/-!
# `strtoul` in base 16

A text is the bytes in memory from a pointer on; behind the last one there is the terminating
zero. `unsigned long` has 64 bits.
-/
namespace Aware.Strtoul

def peek : List UInt8 → UInt8
  | [] => 0
  | c :: _ => c

def isSpace (c : UInt8) : Bool :=
  c == 32 || (9 ≤ c && c ≤ 13)

def hexVal (c : UInt8) : Option ℕ :=
  if 48 ≤ c ∧ c ≤ 57 then some (c.toNat - 48)
  else if 65 ≤ c ∧ c ≤ 70 then some (c.toNat - 55)
  else if 97 ≤ c ∧ c ≤ 102 then some (c.toNat - 87)
  else none

def digits : ℕ → List UInt8 → ℕ × List UInt8
  | n, [] => (n, [])
  | n, c :: s =>
    match hexVal c with
    | some d => digits (16 * n + d) s
    | none => (n, c :: s)

def prefixed : List UInt8 → Bool
  | z :: x :: c :: _ => z == 48 && (x == 120 || x == 88) && (hexVal c).isSome
  | _ => false

/-- The digits that are converted, after white space and sign; `none` when there are none. -/
def magnitude (s : List UInt8) : Option (ℕ × List UInt8) :=
  let s := if prefixed s then s.drop 2 else s
  if (hexVal (peek s)).isSome then some (digits 0 s) else none

/-- The value, what `*endptr` points to, and whether `errno` was set to `ERANGE`. -/
structure Conversion where
  value : UInt64
  rest : List UInt8
  range : Bool
  deriving DecidableEq, Repr

def convert (s : List UInt8) (negative : Bool) (t : List UInt8) : Conversion :=
  match magnitude t with
  | none => ⟨0, s, false⟩
  | some (n, rest) =>
    if n < 2 ^ 64 then ⟨if negative then -UInt64.ofNat n else UInt64.ofNat n, rest, false⟩
    else ⟨0xffffffffffffffff, rest, true⟩

def strtoul (s : List UInt8) : Conversion :=
  match s.dropWhile isSpace with
  | 45 :: t => convert s true t
  | 43 :: t => convert s false t
  | t => convert s false t

def hexDigit (n : ℕ) : UInt8 :=
  if n < 10 then UInt8.ofNat (48 + n) else UInt8.ofNat (55 + n)

def hexByte (b : UInt8) : List UInt8 :=
  [hexDigit (b.toNat / 16), hexDigit (b.toNat % 16)]

variable {n : ℕ} {s : List UInt8}

theorem hexVal_hexDigit (h : n < 16) : hexVal (hexDigit n) = some n := by
  revert n
  decide

theorem isSpace_hexDigit (h : n < 16) : isSpace (hexDigit n) = false := by
  revert n
  decide

theorem hexDigit_ne (h : n < 16) {c : UInt8} (hc : c ∈ [43, 45, 88, 120]) : hexDigit n ≠ c := by
  have hval : ∀ c ∈ ([43, 45, 88, 120] : List UInt8), hexVal c = none := by decide +kernel
  intro heq
  have hnone := hval c hc
  rw [← heq, hexVal_hexDigit h] at hnone
  cases hnone

theorem digits_of_peek (h : hexVal (peek s) = none) : digits n s = (n, s) := by
  cases s with
  | nil => rfl
  | cons c s =>
    rw [peek] at h
    rw [digits, h]

theorem magnitude_hexByte (b : UInt8) (h : hexVal (peek s) = none) :
    magnitude (hexByte b ++ s) = some (b.toNat, s) := by
  have hhi : b.toNat / 16 < 16 := by
    have := b.toNat_lt
    omega
  have hlo : b.toNat % 16 < 16 := Nat.mod_lt _ (by decide)
  have hmark : prefixed (hexByte b ++ s) = false := by
    have hx : hexDigit (b.toNat % 16) ≠ 120 := hexDigit_ne hlo (by decide)
    have hX : hexDigit (b.toNat % 16) ≠ 88 := hexDigit_ne hlo (by decide)
    cases s with
    | nil => rfl
    | cons c s => simp [hexByte, prefixed, hx, hX]
  have hvalue : 16 * (16 * 0 + b.toNat / 16) + b.toNat % 16 = b.toNat := by omega
  have hdigits : digits 0 (hexByte b ++ s) = (b.toNat, s) := by
    simp only [hexByte, List.cons_append, List.nil_append, digits, hexVal_hexDigit hhi,
      hexVal_hexDigit hlo, hvalue]
    exact digits_of_peek h
  have hpeek : hexVal (peek (hexByte b ++ s)) = some (b.toNat / 16) := hexVal_hexDigit hhi
  simp only [magnitude, hmark, Bool.false_eq_true, if_false, hpeek, Option.isSome_some, if_true,
    hdigits]

theorem strtoul_hexByte (b : UInt8) (h : hexVal (peek s) = none) :
    strtoul (hexByte b ++ s) = ⟨b.toUInt64, s, false⟩ := by
  have hlt := b.toNat_lt
  have hhi : b.toNat / 16 < 16 := by omega
  have hspace : (hexByte b ++ s).dropWhile isSpace = hexByte b ++ s :=
    List.dropWhile_cons_of_neg (by simp [isSpace_hexDigit hhi])
  have hconvert : convert (hexByte b ++ s) false (hexByte b ++ s) = ⟨b.toUInt64, s, false⟩ := by
    rw [convert, magnitude_hexByte b h]
    simp only [Bool.false_eq_true, if_false]
    rw [if_pos (by omega)]
    congr 1
    rw [← UInt64.toNat_inj, UInt64.toNat_ofNat', UInt8.toNat_toUInt64]
    exact Nat.mod_eq_of_lt (by omega)
  rw [strtoul, hspace]
  split
  · rename_i heq
    exact absurd (List.cons.inj heq).1 (hexDigit_ne hhi (by decide))
  · rename_i heq
    exact absurd (List.cons.inj heq).1 (hexDigit_ne hhi (by decide))
  · exact hconvert

example : strtoul [32, 43, 48, 120, 49, 70, 58] = ⟨31, [58], false⟩ := by decide

end Aware.Strtoul
