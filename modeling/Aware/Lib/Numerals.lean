import Mathlib.Algebra.Group.Int.Defs
import Mathlib.Algebra.Group.Nat.Defs
import Mathlib.Data.List.TakeWhile
import Mathlib.Tactic.Common

/-!
Decimal numbers in texts: what a stream extracts for an unsigned type of `w` bits, and what it
writes for a number.
-/
namespace Aware.Numerals

def isSpace (c : Char) : Bool :=
  c.toNat = 32 || (9 ≤ c.toNat && c.toNat ≤ 13)

def leading (cs : List Char) : Option ℕ :=
  match cs.takeWhile Char.isDigit with
  | [] => none
  | c :: ds => some (Nat.ofDigitChars 10 (c :: ds) 0)

def fit (w : ℕ) (n : Option ℕ) : ℕ :=
  match n with
  | some n => if n < 2 ^ w then n else 0
  | none => 0

/-- Extraction into an unsigned type, which takes a sign and negates modulo `2 ^ w`. -/
def scan (w : ℕ) (s : String) : ℕ :=
  match s.toList.dropWhile isSpace with
  | '-' :: cs => (2 ^ w - fit w (leading cs)) % 2 ^ w
  | '+' :: cs => fit w (leading cs)
  | cs => fit w (leading cs)

def scanInt (w : ℕ) (s : String) : ℤ :=
  match s.toList.dropWhile isSpace with
  | '-' :: cs =>
    match leading cs with
    | some n => if n ≤ 2 ^ (w - 1) then -(n : ℤ) else 0
    | none => 0
  | '+' :: cs => fit (w - 1) (leading cs)
  | cs => fit (w - 1) (leading cs)

def formatInt (w n : ℕ) : String :=
  if n % 2 ^ w < 2 ^ (w - 1) then (n % 2 ^ w).repr else "-" ++ (2 ^ w - n % 2 ^ w).repr

/-- What `%d` writes for a 64-bit number: its low 32 bits, taken as signed. -/
def formatInt32 (n : ℕ) : String :=
  if n % 2 ^ 32 < 2 ^ 31 then (n % 2 ^ 32).repr else "-" ++ (2 ^ 32 - n % 2 ^ 32).repr

theorem repr_toList (n : ℕ) : n.repr.toList = Nat.toDigits 10 n :=
  String.toList_ofList

theorem isDigit_of_mem_repr {n : ℕ} {c : Char} (h : c ∈ n.repr.toList) : c.isDigit = true := by
  rw [repr_toList] at h
  exact Nat.isDigit_of_mem_toDigits (by decide) (by decide) h

theorem leading_repr (n : ℕ) : leading n.repr.toList = some n := by
  have hall : n.repr.toList.takeWhile Char.isDigit = n.repr.toList :=
    List.takeWhile_eq_self_iff.mpr fun c hc => isDigit_of_mem_repr hc
  rw [leading, hall]
  have hvalue : Nat.ofDigitChars 10 n.repr.toList 0 = n := by
    rw [repr_toList]
    exact Nat.ofDigitChars_ten_toDigits
  cases hrepr : n.repr.toList with
  | nil =>
    rw [repr_toList] at hrepr
    exact absurd hrepr Nat.toDigits_ne_nil
  | cons c ds =>
    rw [hrepr] at hvalue
    exact congrArg some hvalue

theorem exists_digit (n : ℕ) : ∃ c ds, n.repr.toList = c :: ds ∧ c.isDigit = true := by
  cases hrepr : n.repr.toList with
  | nil =>
    rw [repr_toList] at hrepr
    exact absurd hrepr Nat.toDigits_ne_nil
  | cons c ds => exact ⟨c, ds, rfl, isDigit_of_mem_repr (hrepr ▸ List.mem_cons_self)⟩

theorem scan_of_digit (w : ℕ) {s : String} {c : Char} {ds : List Char} (hs : s.toList = c :: ds)
    (hc : c.isDigit = true) : scan w s = fit w (leading s.toList) := by
  have hge : 48 ≤ c.toNat := by
    simp only [Char.isDigit, Bool.and_eq_true, decide_eq_true_eq, ge_iff_le,
      UInt32.le_iff_toNat_le] at hc
    exact hc.1
  have hspace : ¬ isSpace c = true := by
    simp only [isSpace, Bool.or_eq_true, Bool.and_eq_true, decide_eq_true_eq]
    omega
  rw [scan, hs, List.dropWhile_cons_of_neg hspace]
  split
  · rename_i heq
    cases heq
    exact absurd hc (by decide)
  · rename_i heq
    cases heq
    exact absurd hc (by decide)
  · rfl

theorem scan_repr (w n : ℕ) : scan w n.repr = if n < 2 ^ w then n else 0 := by
  obtain ⟨c, ds, hrepr, hdigit⟩ := exists_digit n
  rw [scan_of_digit w hrepr hdigit, leading_repr]
  rfl

theorem repr_injective {m n : ℕ} (h : m.repr = n.repr) : m = n := by
  have hlead := congrArg (fun s : String => leading s.toList) h
  simpa only [leading_repr, Option.some.injEq] using hlead

theorem formatInt_eq_repr_iff (w n : ℕ) : formatInt w n = n.repr ↔ n < 2 ^ (w - 1) := by
  have hhalf : 2 ^ (w - 1) ≤ 2 ^ w := Nat.pow_le_pow_right (by decide) (Nat.sub_le w 1)
  rw [formatInt]
  split
  · rename_i hsmall
    constructor
    · intro h
      rwa [repr_injective h] at hsmall
    · intro h
      rw [Nat.mod_eq_of_lt (Nat.lt_of_lt_of_le h hhalf)]
  · rename_i hbig
    refine ⟨fun h => ?_, fun h => absurd (Nat.lt_of_le_of_lt (Nat.mod_le _ _) h) hbig⟩
    -- a numeral does not start with a sign
    obtain ⟨c, ds, hrepr, hdigit⟩ := exists_digit n
    rw [← h, String.toList_append] at hrepr
    have hminus : '-' = c := (List.cons.inj hrepr).1
    subst hminus
    exact absurd hdigit (by decide)

theorem formatInt32_eq_repr_iff (n : ℕ) : formatInt32 n = n.repr ↔ n < 2 ^ 31 :=
  formatInt_eq_repr_iff 32 n

theorem formatInt32_head (n : ℕ) :
    ((formatInt32 n).toList.head?.any fun c => c.isDigit || c == '-') = true := by
  rw [formatInt32]
  split
  · obtain ⟨c, ds, hrepr, hdigit⟩ := exists_digit (n % 2 ^ 32)
    rw [hrepr]
    simp [hdigit]
  · rw [String.toList_append]
    rfl

end Aware.Numerals
