import Mathlib.Data.List.Basic
import Mathlib.Data.BitVec

/-!
# Bit strings and their prefixes

Bit `0` is the first bit. Two strings agree on a prefix, a string is clean from a position on
when it is zero there, and the first difference of two strings is where a prefix ends.
-/
namespace Aware.BitStrings

variable {w : ℕ}

def Agree (n : ℕ) (a b : BitVec w) : Prop :=
  ∀ i < n, a.getMsbD i = b.getMsbD i

instance (n : ℕ) (a b : BitVec w) : Decidable (Agree n a b) :=
  inferInstanceAs (Decidable (∀ i < n, _))

def Clean (n : ℕ) (a : BitVec w) : Prop :=
  ∀ i, n ≤ i → a.getMsbD i = false

theorem Agree.refl (n : ℕ) (a : BitVec w) : Agree n a a :=
  fun _ _ => rfl

variable {a b : BitVec w} {n : ℕ}

theorem Agree.symm (h : Agree n a b) : Agree n b a :=
  fun i hi => (h i hi).symm

theorem Agree.trans {c : BitVec w} (h : Agree n a b) (k : Agree n b c) : Agree n a c :=
  fun i hi => (h i hi).trans (k i hi)

theorem Agree.mono {m : ℕ} (h : Agree n a b) (hm : m ≤ n) : Agree m a b :=
  fun i hi => h i (by omega)

theorem Agree.le_of_ne {m : ℕ} (h : Agree m a b) (hn : a.getMsbD n ≠ b.getMsbD n) : m ≤ n :=
  Nat.le_of_not_lt fun hlt => hn (h n hlt)

theorem Agree.eq (h : Agree n a b) (hn : w ≤ n) : a = b :=
  BitVec.eq_of_getMsbD_eq fun i hi => h i (by omega)

theorem Agree.eq_of_clean (h : Agree n a b) (ha : Clean n a) (hb : Clean n b) : a = b := by
  refine BitVec.eq_of_getMsbD_eq fun i _ => ?_
  rcases Nat.lt_or_ge i n with hi | hi
  · exact h i hi
  · rw [ha i hi, hb i hi]

theorem Clean.eq_zero (h : Clean 0 a) : a = 0 := by
  refine BitVec.eq_of_getMsbD_eq fun i _ => ?_
  rw [h i (Nat.zero_le i)]
  simp

def firstDiff (limit : ℕ) (a b : BitVec w) : Option ℕ :=
  (List.range limit).find? fun i => a.getMsbD i != b.getMsbD i

theorem firstDiff_eq_none_iff {limit : ℕ} : firstDiff limit a b = none ↔ Agree limit a b := by
  simp [firstDiff, Agree]

theorem firstDiff_eq_some {limit d : ℕ} (h : firstDiff limit a b = some d) :
    d < limit ∧ Agree d a b ∧ a.getMsbD d ≠ b.getMsbD d := by
  rw [firstDiff, List.find?_range_eq_some] at h
  obtain ⟨hd, hmem, hbefore⟩ := h
  refine ⟨List.mem_range.mp hmem, fun i hi => ?_, by simpa using hd⟩
  simpa using hbefore i hi

def leadingOnes (n : ℕ) : BitVec w :=
  BitVec.allOnes w <<< (w - n)

theorem getMsbD_leadingOnes {i : ℕ} (hn : n ≤ w) :
    (leadingOnes n : BitVec w).getMsbD i = decide (i < n) := by
  simp only [leadingOnes, BitVec.getMsbD_shiftLeft, BitVec.getMsbD_allOnes]
  exact decide_eq_decide.mpr (by omega)

theorem getMsbD_and_leadingOnes (hn : n ≤ w) (a : BitVec w) (i : ℕ) :
    (a &&& leadingOnes n).getMsbD i = (a.getMsbD i && decide (i < n)) := by
  rw [BitVec.getMsbD_and, getMsbD_leadingOnes hn]

theorem clean_and_leadingOnes (hn : n ≤ w) (a : BitVec w) : Clean n (a &&& leadingOnes n) := by
  intro i hi
  rw [getMsbD_and_leadingOnes hn, decide_eq_false (by omega), Bool.and_false]

theorem and_leadingOnes_eq_iff (hn : n ≤ w) (hb : Clean n b) :
    a &&& leadingOnes n = b ↔ Agree n a b := by
  have hpre : Agree n (a &&& leadingOnes n) a := by
    intro i hi
    rw [getMsbD_and_leadingOnes hn, decide_eq_true hi, Bool.and_true]
  constructor
  · rintro rfl
    exact hpre.symm
  · intro h
    exact (hpre.trans h).eq_of_clean (clean_and_leadingOnes hn a) hb

end Aware.BitStrings
